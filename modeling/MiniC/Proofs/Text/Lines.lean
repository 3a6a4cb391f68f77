import MiniC.Text.Lines

/-!
# Counting lines

A text has as many lines as line feeds, and one more if something follows the last of them. What is written
line by line is split into these lines again. The number of a line is one more than the line feeds before it
(`getLine?_of_isLine`).
-/

namespace MiniC.Text

theorem lineFeeds_cons {c : Char} (hc : c ≠ '\n') (cs : List Char) : lineFeeds (c :: cs) = lineFeeds cs :=
  List.count_cons_of_ne hc

theorem lineFeeds_lineFeed (cs : List Char) : lineFeeds ('\n' :: cs) = lineFeeds cs + 1 :=
  List.count_cons_self

/-- Nothing follows the last line end. -/
def isFinished (cs : List Char) : Bool := cs.getLast?.all (· == '\n')

@[simp] theorem isFinished_nil : isFinished [] = true := rfl

theorem isFinished_cons {c : Char} (hc : c ≠ '\n') (cs : List Char) :
    isFinished (c :: cs) = (isFinished cs && !cs.isEmpty) := by
  cases cs with
  | nil => simp [isFinished, hc]
  | cons d cs => simp [isFinished, List.getLast?_cons_cons]

@[simp] theorem isFinished_lineFeed (cs : List Char) : isFinished ('\n' :: cs) = isFinished cs := by
  cases cs with
  | nil => rfl
  | cons d cs => simp [isFinished, List.getLast?_cons_cons]

theorem isFinished_iff {cs : List Char} : isFinished cs ↔ cs = [] ∨ cs.getLast? = some '\n' := by
  cases cs with
  | nil => simp
  | cons c cs => simp [isFinished, List.getLast?_eq_some_getLast]

theorem splitLines_eq_nil {cs : List Char} (h : splitLines cs = []) : cs = [] := by
  fun_induction splitLines cs with
  | case1 => rfl
  | _ => cases h

theorem length_splitLines (cs : List Char) :
    (splitLines cs).length = lineFeeds cs + if isFinished cs then 0 else 1 := by
  fun_induction splitLines cs with
  | case1 => rfl
  | case2 cs ih =>
    rw [List.length_cons, ih, lineFeeds_cons (by decide), lineFeeds_lineFeed, isFinished_cons (by decide), isFinished_lineFeed]
    simp
    omega
  | case3 cs ih =>
    rw [List.length_cons, ih, lineFeeds_lineFeed, isFinished_lineFeed]
    omega
  | case4 c cs _ hc hnil ih =>
    obtain rfl := splitLines_eq_nil hnil
    rw [lineFeeds_cons hc, isFinished_cons hc]
    rfl
  | case5 c cs _ hc line others hcons ih =>
    have hne : cs.isEmpty = false := by
      cases cs with
      | nil => cases hcons
      | cons => rfl
    rw [lineFeeds_cons hc, isFinished_cons hc, hne, Bool.not_false, Bool.and_true, ← ih, hcons]
    rfl

theorem splitLines_cons {c : Char} {cs line : List Char} {others : List (List Char)} (hc : c ≠ '\n')
    (hreturn : c = '\r' → cs.head? ≠ some '\n') (h : splitLines cs = line :: others) :
    splitLines (c :: cs) = (c :: line) :: others := by
  rw [splitLines, h]
  · rintro rest rfl rfl
    exact hreturn rfl rfl
  · exact hc

/-- A line and what follows its end are split. -/
theorem splitLines_append {cs : List Char} (hfeed : '\n' ∉ cs) (hlast : cs.getLast? ≠ some '\r')
    (rest : List Char) : splitLines (cs ++ '\n' :: rest) = cs :: splitLines rest := by
  induction cs with
  | nil => rw [List.nil_append, splitLines]
  | cons c cs ih =>
    have hc : c ≠ '\n' := fun heq => hfeed (heq ▸ List.mem_cons_self)
    have hrest : '\n' ∉ cs := fun hmem => hfeed (List.mem_cons_of_mem c hmem)
    cases cs with
    | nil => exact splitLines_cons hc (fun heq => absurd (by simp [heq]) hlast) (by simp [splitLines])
    | cons d cs =>
      refine splitLines_cons hc (fun _ heq => ?_) (ih hrest (by simpa using hlast))
      obtain rfl : d = '\n' := Option.some.inj heq
      exact hrest List.mem_cons_self

/-- A line that ends in a carriage return and a line feed, and what follows its end, are split. -/
theorem splitLines_append_return {cs : List Char} (hfeed : '\n' ∉ cs) (rest : List Char) :
    splitLines (cs ++ '\r' :: '\n' :: rest) = cs :: splitLines rest := by
  induction cs with
  | nil => rw [List.nil_append, splitLines]
  | cons c cs ih =>
    have hc : c ≠ '\n' := fun heq => hfeed (heq ▸ List.mem_cons_self)
    refine splitLines_cons hc (fun _ hhead => ?_) (ih fun hmem => hfeed (List.mem_cons_of_mem c hmem))
    cases cs with
    | nil => exact absurd (Option.some.inj hhead) (by decide)
    | cons d cs =>
      obtain rfl : d = '\n' := Option.some.inj hhead
      exact hfeed (List.mem_cons_of_mem c List.mem_cons_self)

/-- A last line without an end. -/
theorem splitLines_of_not_mem {cs : List Char} (hfeed : '\n' ∉ cs) (hne : cs ≠ []) :
    splitLines cs = [cs] := by
  induction cs with
  | nil => exact absurd rfl hne
  | cons c cs ih =>
    have hc : c ≠ '\n' := fun heq => hfeed (heq ▸ List.mem_cons_self)
    have hrest : '\n' ∉ cs := fun hmem => hfeed (List.mem_cons_of_mem c hmem)
    cases cs with
    | nil => rw [splitLines, splitLines] <;> simp [hc]
    | cons d cs =>
      refine splitLines_cons hc (fun _ hhead => hrest ?_) (ih hrest (List.cons_ne_nil d cs))
      exact Option.some.inj hhead ▸ List.mem_cons_self

/-- Lines that are finished are split apart from what follows them. -/
theorem splitLines_finished {cs : List Char} (h : isFinished cs) (rest : List Char) :
    splitLines (cs ++ rest) = splitLines cs ++ splitLines rest := by
  fun_induction splitLines cs with
  | case1 => rfl
  | case2 cs ih =>
    rw [isFinished_cons (by decide), isFinished_lineFeed] at h
    rw [List.cons_append, List.cons_append, splitLines, ih (by simpa using h), List.cons_append]
  | case3 cs ih =>
    rw [List.cons_append, splitLines, ih (by simpa using h), List.cons_append]
  | case4 c cs _ hc hnil ih =>
    obtain rfl := splitLines_eq_nil hnil
    exact absurd (by simpa [isFinished] using h) hc
  | case5 c cs hreturn hc line others hcons ih =>
    have hne : cs ≠ [] := by
      rintro rfl
      cases hcons
    rw [isFinished_cons hc, Bool.and_eq_true] at h
    refine splitLines_cons hc (fun heq hhead => ?_) ((ih h.1).trans (by rw [hcons]; rfl))
    obtain ⟨d, cs, rfl⟩ := List.exists_cons_of_ne_nil hne
    exact hreturn cs heq (by rw [Option.some.inj hhead])

/-- A text with `earlier` in front of it and `later` behind it is a line, without its end. -/
structure IsLine (earlier line later : List Char) : Prop where
  start : isFinished earlier
  no_feed : '\n' ∉ line
  finish : later = [] ∨ (∃ rest, later = '\n' :: rest ∧ line.getLast? ≠ some '\r') ∨
    ∃ rest, later = '\r' :: '\n' :: rest

/-- A line is found under its number, unless it is an empty one behind the last line end. -/
theorem getLine?_of_isLine {earlier line later : List Char} (h : IsLine earlier line later)
    (hne : line ≠ [] ∨ later ≠ []) {source : String} (hsource : source.toList = earlier ++ line ++ later) :
    getLine? source (1 + lineFeeds earlier) = some (String.ofList line) := by
  have hsplit : ∃ others, splitLines (line ++ later) = line :: others := by
    rcases h.finish with rfl | ⟨rest, rfl, hreturn⟩ | ⟨rest, rfl⟩
    · rw [List.append_nil]
      exact ⟨[], splitLines_of_not_mem h.no_feed (by simpa using hne)⟩
    · exact ⟨_, splitLines_append h.no_feed hreturn rest⟩
    · exact ⟨_, splitLines_append_return h.no_feed rest⟩
  obtain ⟨others, hothers⟩ := hsplit
  have hlength : (splitLines earlier).length = lineFeeds earlier := by
    rw [length_splitLines, if_pos h.start, Nat.add_zero]
  have hlines : splitLines source.toList = splitLines earlier ++ line :: others := by
    rw [hsource, List.append_assoc, splitLines_finished h.start, hothers]
  rw [getLine?, if_neg (by omega), hlines, Nat.add_sub_cancel_left, ← hlength]
  simp

/-- What stands in front of a place in its line, behind the last line feed. -/
theorem exists_front (before : List Char) :
    ∃ earlier front, before = earlier ++ front ∧ isFinished earlier ∧ '\n' ∉ front := by
  induction before with
  | nil => exact ⟨[], [], rfl, rfl, List.not_mem_nil⟩
  | cons c cs ih =>
    obtain ⟨earlier, front, rfl, hfinished, hfeed⟩ := ih
    by_cases hc : c = '\n'
    · subst hc
      exact ⟨'\n' :: earlier, front, rfl, by rwa [isFinished_lineFeed], hfeed⟩
    · cases earlier with
      | nil => exact ⟨[], c :: front, rfl, rfl, List.not_mem_cons_of_ne_of_not_mem (Ne.symm hc) hfeed⟩
      | cons d earlier => exact ⟨c :: d :: earlier, front, rfl, by simp [isFinished_cons hc, hfinished], hfeed⟩

/-- What stands behind a place in its line, up to the line end. -/
theorem exists_back (after : List Char) :
    ∃ back later, after = back ++ later ∧ '\n' ∉ back ∧
      (later = [] ∨ (∃ rest, later = '\n' :: rest ∧ back.getLast? ≠ some '\r') ∨
        ∃ rest, later = '\r' :: '\n' :: rest) := by
  induction after with
  | nil => exact ⟨[], [], rfl, List.not_mem_nil, .inl rfl⟩
  | cons c cs ih =>
    obtain ⟨back, later, rfl, hfeed, hlater⟩ := ih
    by_cases hc : c = '\n'
    · subst hc
      exact ⟨[], _, rfl, List.not_mem_nil, .inr (.inl ⟨_, rfl, by simp⟩)⟩
    have hfeed' : '\n' ∉ c :: back := List.not_mem_cons_of_ne_of_not_mem (Ne.symm hc) hfeed
    rcases hlater with rfl | ⟨rest, rfl, hreturn⟩ | ⟨rest, rfl⟩
    · exact ⟨c :: back, [], rfl, hfeed', .inl rfl⟩
    · cases back with
      | nil =>
        -- A carriage return in front of a line feed is part of the line end.
        by_cases hr : c = '\r'
        · subst hr
          exact ⟨[], _, rfl, List.not_mem_nil, .inr (.inr ⟨rest, rfl⟩)⟩
        · exact ⟨[c], _, rfl, hfeed', .inr (.inl ⟨rest, rfl, by simpa using hr⟩)⟩
      | cons d back =>
        exact ⟨c :: d :: back, _, rfl, hfeed', .inr (.inl ⟨rest, rfl, by simpa using hreturn⟩)⟩
    · exact ⟨c :: back, _, rfl, hfeed', .inr (.inr ⟨rest, rfl⟩)⟩

/-- A stretch of a text without a line feed, which does not stop at a carriage return, is part of one line. -/
theorem exists_isLine (before after : List Char) {stretch : List Char} (hne : stretch ≠ [])
    (hfeed : '\n' ∉ stretch) (hreturn : stretch.getLast? ≠ some '\r') :
    ∃ earlier front back later, before = earlier ++ front ∧ after = back ++ later ∧
      IsLine earlier (front ++ stretch ++ back) later := by
  obtain ⟨earlier, front, hbefore, hfinished, hfront⟩ := exists_front before
  obtain ⟨back, later, hafter, hback, hlater⟩ := exists_back after
  refine ⟨earlier, front, back, later, hbefore, hafter, hfinished, by simp [hfront, hfeed, hback], ?_⟩
  refine hlater.imp_right (Or.imp_left ?_)
  rintro ⟨rest, hrest, hlast⟩
  refine ⟨rest, hrest, ?_⟩
  rw [List.getLast?_append, List.getLast?_append]
  cases hb : back.getLast? with
  | some c => simpa [hb] using hlast
  | none =>
    cases hs : stretch.getLast? with
    | some c => simpa [hs] using hreturn
    | none => exact absurd (List.getLast?_eq_none_iff.mp hs) hne

/-- The line behind the last line end is not there, every line before it is. -/
theorem getLine?_isSome {source : String} {n : Nat} (hpos : 1 ≤ n)
    (hle : n ≤ 1 + lineFeeds source.toList) :
    (getLine? source n).isSome ∨ n = 1 + lineFeeds source.toList ∧ isFinished source.toList := by
  have hlength := length_splitLines source.toList
  by_cases hn : n - 1 < (splitLines source.toList).length
  · exact .inl (by simp [getLine?, Nat.ne_of_gt hpos, List.getElem?_eq_getElem hn])
  · split at hlength
    · exact .inr ⟨by omega, by assumption⟩
    · omega

end MiniC.Text
