/-!
# Escapes in literals

`unescape` decodes the text between the quotes of a literal. A backslash stands before one of
`n t r 0 \ ' "`, or before `x` and one or two hexadecimal digits that give the code of a character.
Any other backslash is refused, together with the character after it.
-/

namespace MiniC.Token

/-- The value of a hexadecimal digit. -/
def hexValue? (c : Char) : Option Nat :=
  if '0' ≤ c ∧ c ≤ '9' then some (c.toNat - '0'.toNat)
  else if 'a' ≤ c ∧ c ≤ 'f' then some (c.toNat - 'a'.toNat + 10)
  else if 'A' ≤ c ∧ c ≤ 'F' then some (c.toNat - 'A'.toNat + 10)
  else none

/-- The character that a backslash and `c` stand for. -/
def simpleEscape? : Char → Option Char
  | 'n' => some '\n'
  | 't' => some '\t'
  | 'r' => some '\r'
  | '0' => some '\x00'
  | '\\' => some '\\'
  | '\'' => some '\''
  | '"' => some '"'
  | _ => none

/-- The decoded body of a literal, or the escape that has no meaning. -/
def unescape : List Char → Except (List Char) (List Char)
  | [] => .ok []
  | [c] => if c = '\\' then .error [c] else .ok [c]
  | c :: d :: cs =>
    if c ≠ '\\' then (unescape (d :: cs)).map (c :: ·)
    else if d = 'x' then
      match cs with
      | [] => .error [c, d]
      | [a] =>
        match hexValue? a with
        | some value => .ok [Char.ofNat value]
        | none => .error [c, d]
      | a :: b :: cs =>
        match hexValue? a, hexValue? b with
        | some high, some low => (unescape cs).map (Char.ofNat (16 * high + low) :: ·)
        | some value, none => (unescape (b :: cs)).map (Char.ofNat value :: ·)
        | none, _ => .error [c, d]
    else
      match simpleEscape? d with
      | some escaped => (unescape cs).map (escaped :: ·)
      | none => .error [c, d]

/-- A text without backslashes stands for itself. -/
theorem unescape_of_plain : ∀ {cs : List Char}, '\\' ∉ cs → unescape cs = .ok cs
  | [], _ => rfl
  | [c], h => if_neg fun (e : c = '\\') => h (e ▸ List.mem_cons_self)
  | c :: d :: cs, h => by
    have hc : c ≠ '\\' := fun e => h (e ▸ List.mem_cons_self)
    have hcs : '\\' ∉ d :: cs := fun e => h (List.mem_cons_of_mem c e)
    unfold unescape
    rw [if_pos hc, unescape_of_plain hcs]
    rfl

end MiniC.Token
