import MiniC.Proofs.Token.Lexeme

/-!
# The first pattern that fits

Where a lexeme starts, its first character nearly always tells its pattern. Only the marks and the
two forms of comments share characters, and the table has the longer of two such patterns first, so
the first pattern that fits takes the longest lexeme (`Pattern.le_of_first?`).
-/

namespace MiniC.Token

namespace Pattern

variable {p q : Pattern} {c : Char} {cs : List Char} {m n : Nat}

/-- The characters that a lexeme of the pattern can start with. -/
def Starts : Pattern → Char → Prop
  | word, c => isWordStart c
  | number, c => c.isDigit
  | blank, c => Text.isBlank c
  | string, c => c = '"'
  | char, c => c = '\''
  | directive, c => c = '#'
  | lineComment, c | blockComment, c => c = '/'
  | mark spelling _, c => spelling.toList.head? = some c

/-- The pattern of which every lexeme that starts with the character is. -/
def ofStart? (c : Char) : Option Pattern :=
  if isWordStart c then some word
  else if c.isDigit then some number
  else if Text.isBlank c then some blank
  else if c = '"' then some string
  else if c = '\'' then some char
  else if c = '#' then some directive
  else none

theorem starts_of_run? {f : Char → Bool} (h : run? f (c :: cs) = some n) : f c := by
  cases hc : f c with
  | true => rfl
  | false => simp [run?, hc] at h

theorem starts_of_length? (h : p.length? (c :: cs) = some n) : p.Starts c := by
  unfold length? at h
  split at h
  case h_1 heq =>
    obtain ⟨rfl, rfl⟩ := List.cons.inj heq
    split at h
    · assumption
    · cases h
  case h_2 => exact starts_of_run? h
  case h_3 => exact starts_of_run? h
  case h_9 spelling kind =>
    split at h
    · next hfront =>
      cases hs : spelling.toList with
      | nil => simp [hs] at h
      | cons d ds => simp_all [Starts]
    · cases h
  case h_10 => cases h
  all_goals
    rename_i heq
    exact (List.cons.inj heq).1

theorem toNat_lt_of_isUpper (h : c.isUpper) : c.toNat < 128 :=
  Nat.lt_of_le_of_lt (UInt32.le_iff_toNat_le.mp (of_decide_eq_true h).2) (by decide)

theorem toNat_lt_of_isLower (h : c.isLower) : c.toNat < 128 :=
  Nat.lt_of_le_of_lt (UInt32.le_iff_toNat_le.mp (of_decide_eq_true (Bool.and_eq_true_iff.mp h).2))
    (by decide)

theorem toNat_lt_of_isWordChar (h : isWordChar c) : c.toNat < 128 := by
  simp only [isWordChar, isWordStart, Bool.or_eq_true, beq_iff_eq] at h
  rcases h with (halpha | rfl) | hdigit
  · exact (Bool.or_eq_true_iff.mp halpha).elim toNat_lt_of_isUpper toNat_lt_of_isLower
  · decide
  · exact Nat.lt_of_le_of_lt (Char.isDigit_iff_toNat.mp hdigit).2 (by decide)

/-- What holds of the characters of the first codes holds of all that words and numbers consist of. -/
theorem of_isWordChar {P : Char → Prop} (h : isWordChar c)
    (hall : ∀ n < 128, isWordChar (Char.ofNat n) → P (Char.ofNat n)) : P c := by
  have hc : Char.ofNat c.toNat = c := Char.ofNat_toNat c
  rw [← hc] at h ⊢
  exact hall c.toNat (toNat_lt_of_isWordChar (hc ▸ h)) h

theorem isBlank_eq_false_of_isWordChar (h : isWordChar c) : Text.isBlank c = false :=
  of_isWordChar (P := fun c => Text.isBlank c = false) h (by decide)

theorem isWordStart_eq_false_of_isDigit (h : c.isDigit) : isWordStart c = false := by
  have hword : isWordChar c := by simp [isWordChar, h]
  exact of_isWordChar (P := fun c => c.isDigit → isWordStart c = false) hword (by decide) h

/-- No blank is a digit or starts a word. -/
theorem ofStart?_of_isBlank (h : Text.isBlank c) : ofStart? c = some blank := by
  have hword : isWordChar c = false := by
    cases hc : isWordChar c with
    | false => rfl
    | true => rw [isBlank_eq_false_of_isWordChar hc] at h; cases h
  obtain ⟨hstart, hdigit⟩ : isWordStart c = false ∧ c.isDigit = false := by
    simpa [isWordChar] using hword
  simp [ofStart?, hstart, hdigit, h]

/-- The patterns that share no starting character with another one. -/
def IsSole : Pattern → Bool
  | lineComment | blockComment | mark .. => false
  | _ => true

theorem ofStart?_of_starts (hp : p.Starts c) (hsole : p.IsSole) : ofStart? c = some p := by
  cases p with
  | word => exact if_pos hp
  | number => simp [ofStart?, isWordStart_eq_false_of_isDigit hp, show c.isDigit from hp]
  | blank => exact ofStart?_of_isBlank hp
  | string | char | directive =>
    obtain rfl := hp
    rfl
  | _ => cases hsole

theorem ofStart?_eq_none (hmem : p ∈ table) (hp : p.Starts c) (hsole : p.IsSole = false) :
    ofStart? c = none := by
  have hmarks : ∀ entry ∈ TokenKind.marks, entry.1.toList.head?.bind ofStart? = none := by decide
  cases p with
  | lineComment | blockComment =>
    obtain rfl := hp
    rfl
  | mark spelling kind =>
    have hhead : spelling.toList.head? = some c := hp
    have hnone := hmarks (spelling, kind) (by simpa [table] using hmem)
    rwa [hhead] at hnone
  | _ => cases hsole

/-- A lexeme of a sole pattern can be of no other one. -/
theorem eq_of_starts (hsole : p.IsSole) (hp : p.Starts c) (hmem : q ∈ table) (hq : q.Starts c) :
    q = p := by
  have hstart := ofStart?_of_starts hp hsole
  cases hother : q.IsSole with
  | true => exact Option.some.inj ((ofStart?_of_starts hq hother).symm.trans hstart)
  | false =>
    rw [ofStart?_eq_none hmem hq hother] at hstart
    cases hstart

/-! ## The first pattern -/

/-- The first pattern that fits is the one before which none does. -/
theorem first?_eq_some_iff : first? cs = some (p, n) ↔
    ∃ before after, table = before ++ p :: after ∧ (∀ q ∈ before, q.length? cs = none) ∧
      p.length? cs = some n := by
  rw [first?, List.findSome?_eq_some_iff]
  constructor
  · rintro ⟨before, q, after, htable, hq, hbefore⟩
    obtain ⟨m, hm, heq⟩ := Option.map_eq_some_iff.mp hq
    obtain ⟨rfl, rfl⟩ := Prod.mk.inj heq
    exact ⟨before, after, htable, fun r hr => Option.map_eq_none_iff.mp (hbefore r hr), hm⟩
  · rintro ⟨before, after, htable, hbefore, hn⟩
    exact ⟨before, p, after, htable, by rw [hn]; rfl,
      fun r hr => Option.map_eq_none_iff.mpr (hbefore r hr)⟩

/-- Where a lexeme of a sole pattern can start, no other pattern is used. -/
theorem first?_of_starts (hmem : p ∈ table) (hsole : p.IsSole) (hp : p.Starts c) :
    first? (c :: cs) = (p.length? (c :: cs)).map (p, ·) := by
  have hother : ∀ q ∈ table, q ≠ p → q.length? (c :: cs) = none := by
    intro q hq hne
    cases hn : q.length? (c :: cs) with
    | none => rfl
    | some n => exact absurd (eq_of_starts hsole hp hq (starts_of_length? hn)) hne
  cases hfirst : first? (c :: cs) with
  | none =>
    exact (List.findSome?_eq_none_iff.mp hfirst p hmem).symm
  | some answer =>
    obtain ⟨q, n⟩ := answer
    obtain ⟨hq, hn⟩ := first?_spec hfirst
    by_cases hqp : q = p
    · rw [← hqp, hn]
      rfl
    · rw [hother q hq hqp] at hn
      cases hn

theorem first?_word {c : Char} {cs : List Char} (h : isWordStart c) :
    first? (c :: cs) = some (word, ((c :: cs).takeWhile isWordChar).length) := by
  have hc : isWordChar c := by simp [isWordChar, h]
  rw [first?_of_starts (p := word) (by decide) rfl h]
  simp [length?, h, hc]

theorem take_takeWhile (f : Char → Bool) (cs : List Char) :
    cs.take (cs.takeWhile f).length = cs.takeWhile f :=
  (List.prefix_iff_eq_take.mp (List.takeWhile_prefix f)).symm

/-! ## Lexemes are part of the text -/

theorem length?_nil (p : Pattern) : p.length? [] = none := by
  cases p with
  | mark spelling kind => cases hs : spelling.toList <;> simp [length?, hs]
  | _ => rfl

theorem of_length?_lineComment (h : lineComment.length? cs = some n) :
    ∃ rest, cs = '/' :: '/' :: rest ∧ n = lineRest rest + 2 := by
  unfold length? at h
  split at h
  case h_7 rest _ => exact ⟨rest, rfl, (Option.some.inj h).symm⟩
  all_goals simp_all

theorem of_length?_blockComment (h : blockComment.length? cs = some n) :
    ∃ rest m, cs = '/' :: '*' :: rest ∧ commentRest? rest = some m ∧ n = m + 2 := by
  unfold length? at h
  split at h
  case h_8 rest _ =>
    obtain ⟨m, hm, rfl⟩ := Option.map_eq_some_iff.mp h
    exact ⟨rest, m, rfl, hm, rfl⟩
  all_goals simp_all

theorem length_takeWhile_le (f : Char → Bool) (cs : List Char) :
    (cs.takeWhile f).length ≤ cs.length := (List.takeWhile_prefix f).length_le

theorem run?_eq_some {f : Char → Bool} (h : run? f cs = some n) :
    n = (cs.takeWhile f).length := by
  unfold run? at h
  split at h
  · cases h
  · next k hk => rw [← Option.some.inj h, hk]

theorem stringRest?_le (h : stringRest? cs = some n) : n ≤ cs.length := by
  fun_induction stringRest? cs generalizing n with
  | case1 => simp [← Option.some.inj h]
  | case2 | case4 | case6 => cases h
  | case3 c cs _ ih | case5 c cs _ _ _ ih =>
    obtain ⟨m, hm, rfl⟩ := Option.map_eq_some_iff.mp h
    have := ih hm
    simp only [List.length_cons]
    omega

theorem hexRest?_le (h : hexRest? cs = some n) : n ≤ cs.length := by
  unfold hexRest? at h
  split at h
  · split at h
    · simp [← Option.some.inj h]
    · cases h
  · split at h
    · simp [← Option.some.inj h]
    · cases h
  · cases h

theorem charRest?_le (h : charRest? cs = some n) : n ≤ cs.length := by
  unfold charRest? at h
  split at h
  · split at h
    · cases h
    · simp [← Option.some.inj h]
  · obtain ⟨m, hm, rfl⟩ := Option.map_eq_some_iff.mp h
    have := hexRest?_le hm
    simp only [List.length_cons]
    omega
  · split at h
    · cases h
    · simp [← Option.some.inj h]
  · cases h

/-- A comment ends at the first closing mark. -/
theorem of_commentRest? (h : commentRest? cs = some n) :
    ∃ body rest, cs = body ++ '*' :: '/' :: rest ∧ n = body.length + 2 ∧
      ¬['*', '/'] <:+: body ++ ['*'] := by
  fun_induction commentRest? cs generalizing n with
  | case1 rest => exact ⟨[], rest, rfl, (Option.some.inj h).symm, by decide⟩
  | case2 c cs hopen ih =>
    obtain ⟨m, hm, rfl⟩ := Option.map_eq_some_iff.mp h
    obtain ⟨body, rest, rfl, rfl, hbody⟩ := ih hm
    refine ⟨c :: body, rest, rfl, rfl, fun hinfix => ?_⟩
    rcases List.infix_cons_iff.mp hinfix with hfront | hinfix
    · obtain ⟨hc, hslash⟩ := List.cons_prefix_cons.mp hfront
      cases body with
      | nil => simp at hslash
      | cons d body =>
        obtain ⟨hd, -⟩ := List.cons_prefix_cons.mp hslash
        exact hopen (body ++ '*' :: '/' :: rest) hc.symm (by rw [← hd]; rfl)
    · exact hbody hinfix
  | case3 => cases h

/-- A comment in front of a closing mark is closed. -/
theorem exists_commentRest? (h : ['*', '/'] <:+: cs) : ∃ n, commentRest? cs = some n := by
  fun_induction commentRest? cs with
  | case1 => exact ⟨_, rfl⟩
  | case2 c cs hopen ih =>
    rcases List.infix_cons_iff.mp h with hfront | hinfix
    · obtain ⟨rfl, rest, rfl⟩ := List.cons_prefix_cons.mp hfront
      exact absurd rfl (hopen _ rfl)
    · obtain ⟨n, hn⟩ := ih hinfix
      exact ⟨n + 1, by rw [hn]; rfl⟩
  | case3 => simp at h

/-- What a pattern takes is part of the text. -/
theorem length?_le (h : p.length? cs = some n) : n ≤ cs.length := by
  cases cs with
  | nil => rw [length?_nil] at h; cases h
  | cons c cs =>
    have hp := starts_of_length? h
    cases p with
    | word =>
      obtain rfl : (cs.takeWhile isWordChar).length + 1 = n := by
        simpa [length?, show isWordStart c from hp] using h
      exact Nat.succ_le_succ (length_takeWhile_le _ _)
    | number | blank => exact run?_eq_some h ▸ length_takeWhile_le _ _
    | string =>
      obtain rfl := hp
      obtain ⟨m, hm, rfl⟩ := Option.map_eq_some_iff.mp h
      exact Nat.succ_le_succ (stringRest?_le hm)
    | char =>
      obtain rfl := hp
      obtain ⟨m, hm, rfl⟩ := Option.map_eq_some_iff.mp h
      exact Nat.succ_le_succ (charRest?_le hm)
    | directive =>
      obtain rfl := hp
      obtain rfl := Option.some.inj h
      exact Nat.succ_le_succ (length_takeWhile_le _ _)
    | lineComment =>
      obtain ⟨rest, heq, rfl⟩ := of_length?_lineComment h
      rw [heq]
      exact Nat.succ_le_succ (Nat.succ_le_succ (length_takeWhile_le _ _))
    | blockComment =>
      obtain ⟨rest, m, heq, hm, rfl⟩ := of_length?_blockComment h
      obtain ⟨body, rest, rfl, rfl, -⟩ := of_commentRest? hm
      rw [heq]
      simp only [List.length_cons, List.length_append]
      omega
    | mark spelling kind =>
      obtain ⟨hfront, rfl⟩ := of_length?_mark h
      exact hfront.length_le

/-! ## The longest lexeme -/

/-- Where both patterns fit, the first one takes no less. -/
def Outdoes (p q : Pattern) : Prop :=
  ∀ cs m n, p.length? cs = some n → q.length? cs = some m → m ≤ n

theorem outdoes_of_isSole (hsole : p.IsSole) (hq : q ∈ table) : p.Outdoes q := by
  intro cs m n hn hm
  cases cs with
  | nil => rw [length?_nil] at hn; cases hn
  | cons c cs =>
    obtain rfl := eq_of_starts hsole (starts_of_length? hn) hq (starts_of_length? hm)
    exact Nat.le_of_eq (Option.some.inj (hm.symm.trans hn))

/-- Comments start with a mark of one character. -/
theorem outdoes_mark (hcomment : p = lineComment ∨ p = blockComment) {entry : String × TokenKind}
    (hentry : entry ∈ TokenKind.marks) : p.Outdoes (mark entry.1 entry.2) := by
  have hslash : ∀ entry ∈ TokenKind.marks,
      entry.1.toList.head? = some '/' → entry.1.toList.length = 1 := by decide
  intro cs m n hn hm
  cases cs with
  | nil => rw [length?_nil] at hn; cases hn
  | cons c cs =>
    have hc : c = '/' := by
      rcases hcomment with rfl | rfl <;> exact starts_of_length? hn
    have hhead : entry.1.toList.head? = some c := starts_of_length? hm
    rw [(of_length?_mark hm).2, hslash entry hentry (hc ▸ hhead)]
    exact length?_pos hn

theorem pairwise_outdoes : table.Pairwise Outdoes := by
  have hmarks : (TokenKind.marks.map fun entry => mark entry.1 entry.2).Pairwise Outdoes := by
    have hshorter : TokenKind.marks.Pairwise fun a b =>
        a.1.toList <+: b.1.toList → b.1.toList.length ≤ a.1.toList.length := by decide
    refine List.pairwise_map.mpr (hshorter.imp fun {a b} hle cs m n hn hm => ?_)
    obtain ⟨ha, rfl⟩ := of_length?_mark hn
    obtain ⟨hb, rfl⟩ := of_length?_mark hm
    rcases List.prefix_or_prefix_of_prefix ha hb with h | h
    · exact hle h
    · exact h.length_le
  have hcomments : Outdoes lineComment blockComment := by
    intro cs m n hn hm
    obtain ⟨rest, rfl, -⟩ := of_length?_lineComment hn
    obtain ⟨_, _, heq, -⟩ := of_length?_blockComment hm
    simp at heq
  have hsplit : table = [word, number, blank, string, char, directive] ++
      ([lineComment, blockComment] ++ TokenKind.marks.map fun entry => mark entry.1 entry.2) := rfl
  have hsole : ∀ p ∈ [word, number, blank, string, char, directive], p.IsSole := by decide
  rw [hsplit]
  refine List.pairwise_append.mpr ⟨List.pairwise_of_forall_mem_list fun p hp q hq => ?_,
    List.pairwise_append.mpr ⟨List.pairwise_pair.mpr hcomments, hmarks, fun p hp q hq => ?_⟩,
    fun p hp q hq => ?_⟩
  · exact outdoes_of_isSole (hsole p hp) (hsplit ▸ List.mem_append_left _ hq)
  · obtain ⟨entry, hentry, rfl⟩ := List.mem_map.mp hq
    exact outdoes_mark (by simpa using hp) hentry
  · exact outdoes_of_isSole (hsole p hp) (hsplit ▸ List.mem_append_right _ hq)

/-- The first pattern that fits takes the longest lexeme of all that fit. -/
theorem le_of_first? (h : first? cs = some (p, n)) (hq : q ∈ table)
    (hm : q.length? cs = some m) : m ≤ n := by
  obtain ⟨before, after, htable, hbefore, hn⟩ := first?_eq_some_iff.mp h
  have hpairs := pairwise_outdoes
  rw [htable] at hq hpairs
  rcases List.mem_append.mp hq with hq | hq
  · rw [hbefore q hq] at hm
    cases hm
  · rcases List.mem_cons.mp hq with rfl | hq
    · exact Nat.le_of_eq (Option.some.inj (hm.symm.trans hn))
    · exact (List.pairwise_cons.mp (List.pairwise_append.mp hpairs).2.1).1 q hq cs m n hn hm

end Pattern

/-! ## Scanning by the first pattern -/

variable {line : Nat} {cs : List Char}

/-- The token of a reading on a line. -/
def reading (line : Nat) (read : Option (TokenKind × String)) : Option Token :=
  read.map fun (kind, value) => ⟨kind, value, line⟩

theorem scanFrom_of_first?_eq_none {c : Char} (h : Pattern.first? (c :: cs) = none) :
    scanFrom line (c :: cs) = .error ⟨.unrecognisedToken (String.singleton c), line⟩ := by
  rw [scanFrom]
  split
  · rfl
  · next hsome => rw [h] at hsome; cases hsome

theorem scanFrom_of_first? {pattern : Pattern} {n : Nat}
    (h : Pattern.first? cs = some (pattern, n)) :
    scanFrom line cs =
      match pattern.read (cs.take n) with
      | .error cause => .error ⟨cause, line⟩
      | .ok read => (scanFrom (line + Text.lineFeeds (cs.take n)) (cs.drop n)).map
          ((reading line read).toList ++ ·) := by
  cases cs with
  | nil => cases h
  | cons c cs =>
    rw [scanFrom]
    split
    · next hnone => rw [h] at hnone; cases hnone
    · next pattern' n' hsome =>
      obtain ⟨rfl, rfl⟩ := Prod.mk.inj (Option.some.inj (hsome.symm.trans h))
      dsimp only
      cases pattern'.read ((c :: cs).take n') with
      | error cause => rfl
      | ok read =>
        dsimp only
        cases scanFrom (line + Text.lineFeeds ((c :: cs).take n')) ((c :: cs).drop n') with
        | error fault => rfl
        | ok tokens => cases read <;> rfl

end MiniC.Token
