import SafeSubset.Source.Bytes

/-! The library of checked arithmetic, as it is put into a file. -/
namespace SafeSubset.Checked

def libraryName : String := "SafeMath"

/-- Whether a name is the library's, in whatever case. -/
def isLibraryName (name : String) : Bool :=
  name.toList.map Char.toLower = libraryName.toList.map Char.toLower

/-- The definition of the library, with the empty lines around it. -/
def librarySource : Source :=
  ("\n\n// SafeMath library from openzeppelin.\n" ++
   "library SafeMath \x7b\n" ++
   "  function mul(uint256 _a, uint256 _b) internal pure returns (uint256) \x7b\n" ++
   "    if (_a == 0) \x7b\n" ++
   "      return 0;\n" ++
   "    \x7d\n" ++
   "    uint256 c = _a * _b;\n" ++
   "    require(c / _a == _b);\n" ++
   "    return c;\n" ++
   "  \x7d\n" ++
   "\n" ++
   "  function sub(uint256 _a, uint256 _b) internal pure returns (uint256) \x7b\n" ++
   "    require(_b <= _a);\n" ++
   "    uint256 c = _a - _b;\n" ++
   "    return c;\n" ++
   "  \x7d\n" ++
   "\n" ++
   "  function add(uint256 _a, uint256 _b) internal pure returns (uint256) \x7b\n" ++
   "    uint256 c = _a + _b;\n" ++
   "    require(c >= _a);\n" ++
   "    return c;\n" ++
   "  \x7d\n" ++
   "\x7d\n\n").toList

/-- The directive that attaches the library, with the indentation of the member
before which it stands. -/
def directiveSource : Source := "using SafeMath for uint256;\n    ".toList

end SafeSubset.Checked
