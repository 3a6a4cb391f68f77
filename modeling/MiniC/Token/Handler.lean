import MiniC.Token.Cursor
import MiniC.Token.Scan

/-!
# Handlers

Every pattern has a handler, which reads what was matched at a cursor and moves the cursor on. It
counts in bytes. The handler of a mark moves past the spelling that it stands for; the others move
past what was matched. `tokenize` lets the handlers move a cursor over a source; it answers what
`scan` answers, which has no cursor.
-/

namespace MiniC.Token

/-- The number of bytes of a text. -/
def byteSize : List Char → Nat
  | [] => 0
  | c :: cs => c.utf8Size + byteSize cs

/-- Moving past the bytes of a text leaves what follows it. -/
theorem Cursor.dropBytes_append (cs rest : List Char) :
    Cursor.dropBytes (byteSize cs) (cs ++ rest) = rest := by
  induction cs with
  | nil => cases rest <;> rfl
  | cons c cs ih =>
    obtain ⟨bytes, hbytes⟩ : ∃ bytes, byteSize (c :: cs) = bytes + 1 :=
      Nat.exists_eq_add_one.mpr (by have := c.utf8Size_pos; rw [byteSize]; omega)
    have hrest : bytes + 1 - c.utf8Size = byteSize cs := by
      rw [← hbytes, byteSize]
      omega
    rw [hbytes, List.cons_append, dropBytes, hrest, ih]

namespace Pattern

/-- How many bytes the handler of a pattern moves on. -/
def stride (pattern : Pattern) (matched : List Char) : Nat :=
  match pattern with
  | mark spelling _ => byteSize spelling.toList
  | _ => byteSize matched

/-- Reads what was matched at a cursor, and moves the cursor on. -/
def handle (pattern : Pattern) (matched : List Char) (cursor : Cursor) :
    Except Fault (Cursor × Option Token) :=
  match pattern.read matched with
  | .error cause => .error ⟨cause, cursor.line⟩
  | .ok reading =>
    .ok (cursor.advance (pattern.stride matched),
      reading.map fun (kind, value) => ⟨kind, value, cursor.line⟩)

/-- A handler moves past what was matched. -/
theorem stride_eq {pattern : Pattern} {cs : List Char} {n : Nat} (h : pattern.length? cs = some n) :
    pattern.stride (cs.take n) = byteSize (cs.take n) := by
  cases pattern with
  | mark spelling kind =>
    obtain ⟨⟨rest, rfl⟩, rfl⟩ := of_length?_mark h
    rw [stride, List.take_left]
  | _ => rfl

end Pattern

/-- What follows a cursor that a handler has moved on. -/
theorem Cursor.rest_advance {cursor : Cursor} {pattern : Pattern} {n : Nat}
    (h : pattern.length? cursor.rest = some n) :
    (cursor.advance (pattern.stride (cursor.rest.take n))).rest = cursor.rest.drop n := by
  rw [Pattern.stride_eq h]
  calc Cursor.dropBytes (byteSize (cursor.rest.take n)) cursor.rest
      = Cursor.dropBytes (byteSize (cursor.rest.take n))
          (cursor.rest.take n ++ cursor.rest.drop n) := by rw [List.take_append_drop]
    _ = cursor.rest.drop n := dropBytes_append _ _

theorem Pattern.rest_of_handle {cursor moved : Cursor} {pattern : Pattern} {n : Nat}
    {token : Option Token} (hfirst : first? cursor.rest = some (pattern, n))
    (h : pattern.handle (cursor.rest.take n) cursor = .ok (moved, token)) :
    moved.rest = cursor.rest.drop n := by
  unfold handle at h
  split at h
  · cases h
  · obtain ⟨rfl, -⟩ := Prod.mk.inj (Except.ok.inj h)
    exact Cursor.rest_advance (first?_spec hfirst).2

theorem Cursor.rest_ne_nil {cursor : Cursor} {c : Char} (h : cursor.next? = some c) :
    cursor.rest ≠ [] := by
  intro hnil
  simp [next?, hnil] at h

/-- The tokens of a source from a cursor on. -/
def tokenizeFrom (cursor : Cursor) : Except Fault (List Token) :=
  match _hnext : cursor.next? with
  | none => .ok [endOfInput cursor.line]
  | some c =>
    match _h : Pattern.first? cursor.rest with
    | none => .error ⟨.unrecognisedToken (String.singleton c), cursor.line⟩
    | some (pattern, n) =>
      match _hhandle : pattern.handle (cursor.rest.take n) cursor with
      | .error fault => .error fault
      | .ok (moved, token) => (tokenizeFrom moved).map (token.toList ++ ·)
termination_by cursor.rest.length
decreasing_by
  have hmoved := Pattern.rest_of_handle _h _hhandle
  have hpos := Pattern.first?_pos _h
  have hne := Cursor.rest_ne_nil _hnext
  rw [hmoved, List.length_drop]
  have := List.length_pos_iff.mpr hne
  omega

/-- The tokens of a source, by handlers. -/
def tokenize (source : String) (file : Option String) : Except Fault (List Token) :=
  tokenizeFrom (.start source file)

end MiniC.Token
