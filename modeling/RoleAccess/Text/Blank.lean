/-!
White space of the Unicode standard, and trimming it from both ends of a text.
-/

set_option autoImplicit false
set_option relaxedAutoImplicit false

namespace RoleAccess.Text

/-- A character with the White_Space property. The zero-width space, the byte order mark and the
information separators do not have it. -/
def isBlank (c : Char) : Bool :=
  let n := c.toNat
  (9 ≤ n && n ≤ 13) || n == 0x20 || n == 0x85 || n == 0xA0 || n == 0x1680 ||
    (0x2000 ≤ n && n ≤ 0x200A) || n == 0x2028 || n == 0x2029 || n == 0x202F || n == 0x205F ||
    n == 0x3000

def trimStart (s : List Char) : List Char := s.dropWhile isBlank

def trimEnd (s : List Char) : List Char := (s.reverse.dropWhile isBlank).reverse

def trim (s : List Char) : List Char := trimEnd (trimStart s)

/-- The text without the white space at its ends. -/
def trimmed (s : String) : String := String.ofList (trim s.toList)

end RoleAccess.Text
