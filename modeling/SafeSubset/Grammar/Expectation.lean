import SafeSubset.Token.Scan

/-! What a reader reports when it cannot go on. Of all the places at which some
rule failed, the one that lies furthest into the text is kept, together with
everything that would have been accepted there. Going back to an earlier place
does not erase it. -/
namespace SafeSubset.Grammar

open Token (Kind)

/-- Something that a rule would have accepted. -/
inductive Expected where
  | token (kind : Kind)
  | anything
  | somethingElse
  | endOfInput
  deriving DecidableEq, Repr

def Expected.text : Expected → String
  | token k => "'" ++ k.text ++ "'"
  | anything => "any"
  | somethingElse => "something else"
  | endOfInput => "end of input"

/-- Why a word does not fit although a word was due. -/
inductive Misfit where
  | notElementary (word : String)
  | unknownUnit (word : String)
  deriving DecidableEq, Repr

def Misfit.message : Misfit → String
  | notElementary w => "expected an elementary type, found '" ++ w ++ "'"
  | unknownUnit w => "unknown number suffix '" ++ w ++ "'"

inductive Reason where
  /-- None of the expected things stood there. An unknown finding reads as the
  end of the input. -/
  | unmet (expected : List Expected) (found : Option Kind)
  | misfit (m : Misfit)
  deriving DecidableEq, Repr

namespace Reason

/-- Alternatives in a sentence: the last one behind a comma and an "or". -/
def alternatives : List Expected → String
  | [] => Expected.somethingElse.text
  | [e] => e.text
  | es => String.intercalate ", " (es.dropLast.map Expected.text) ++ ", or "
      ++ ((es.getLast?.map Expected.text).getD "")

def message : Reason → String
  | unmet expected found =>
      "found " ++ ((found.map fun k => (Expected.token k).text).getD Expected.endOfInput.text)
        ++ " expected " ++ alternatives expected
  | misfit m => m.message

/-- Two reasons at one place. A misfit prevails over expectations, and of two
misfits the earlier one. -/
def merge : Reason → Reason → Reason
  | unmet es found, unmet es' found' => unmet (es ++ es'.filter (!es.contains ·)) (found <|> found')
  | misfit m, _ => misfit m
  | unmet _ _, misfit m => misfit m

end Reason

/-- A failure before the token of the given number. -/
structure Failure where
  index : Nat
  span : Span
  reason : Reason
  deriving DecidableEq, Repr

def Failure.message (f : Failure) : String := f.reason.message

/-- The failure kept so far. -/
abbrev Register := Option Failure

/-- Of the failure kept so far and another one, what is to be kept. -/
def Register.merge (register : Register) (f : Failure) : Failure :=
  match register with
  | none => f
  | some g =>
      if g.index < f.index then f
      else if f.index < g.index then g
      else { g with reason := g.reason.merge f.reason }

/-- Takes note of a failure. -/
def Register.add (register : Register) (f : Failure) : Register := some (register.merge f)

end SafeSubset.Grammar
