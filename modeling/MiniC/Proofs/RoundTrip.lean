import MiniC.Grammar.File
import MiniC.Proofs.Grammar.Operands
import MiniC.Proofs.Phrase.Statement

/-!
# Printing and reading programs

A tree that has been read from a source is printed as tokens: every operand that has parts or casts stands in
parentheses, every variable has a declaration of its own. The tokens are read as the tree again.
-/

namespace MiniC

namespace Style

/-- Parentheses around everything that has parts leave none out. -/
theorem sound_full : full.Sound := by
  intro place phrase hneeds
  simp only [Phrase.Place.needsParens, Bool.or_eq_true, Bool.and_eq_true, decide_eq_true_eq] at hneeds
  simp only [full, Bool.or_eq_true]
  rcases hneeds with hlt | ⟨hplace, -⟩
  · refine .inl ?_
    by_contra hsimple
    have hpower : phrase.power = .primary := Phrase.power_of_not_isComposite hsimple
    rw [hpower] at hlt
    exact absurd (Grammar.least_le_primary place) (Nat.not_le.mpr hlt)
  · exact .inr hplace

end Style

namespace Grammar

open Parse Word

variable {origin start : Parser} {rest : List Word} {trees declarations : List Tree} {style : Style}
  {tokens : List Token} {tree : Tree}

/-! ## Reading a file that has been printed -/

theorem takes_statement (hstyle : style.Sound) (h : tree.IsStatement) : Takes statement style tree := by
  refine ⟨h, (takes_statementWithin hstyle h (Nat.le_refl _)).starts, fun hahead hnext => ?_⟩
  refine .patience hahead ((takes_statementWithin hstyle h ?_).ends hahead hnext)
  rw [List.length_append]
  omega

/-- A reader of declarations gets along without a bound on how deep they nest. -/
theorem takes_declaration (hstyle : style.Sound) (h : tree.IsStatement) (hdeclares : tree.declares) :
    Takes (declaration statement) style tree := by
  cases h with
  | declaration name htype hinitial => exact takes_variable statement name hstyle htype hinitial
  | function name hresult hparams hbody =>
    exact takes_function name hresult hparams fun statements hsome statement hmem =>
      takes_statement hstyle (hbody statements hsome statement hmem)
  | _ => cases hdeclares

theorem ends_declarationsFrom {rounds count : Nat} (hstyle : style.Sound)
    (hdeclarations : ∀ tree ∈ declarations, tree.IsStatement ∧ tree.declares)
    (h : origin.Ahead (declarations.flatMap (Tree.words style) ++ [TokenKind.eof.word]) trees start)
    (hrounds : declarations.length < rounds) :
    Ends (declarationsFrom rounds count) start fun found parser => found = count + declarations.length ∧
      origin.Ahead [TokenKind.eof.word] (declarations.reverse ++ trees) parser := by
  induction declarations generalizing start trees rounds count with
  | nil =>
    obtain ⟨rounds, rfl⟩ := Nat.exists_eq_succ_of_ne_zero (Nat.ne_zero_of_lt hrounds)
    have hnone : start.hasTokens = false := h.hasTokens_eq
    exact .get (.neg (by simp [hnone]) (.pure ⟨rfl, h⟩))
  | cons tree declarations ih =>
    obtain ⟨rounds, rfl⟩ := Nat.exists_eq_succ_of_ne_zero (Nat.ne_zero_of_lt hrounds)
    obtain ⟨⟨htree, hdeclares⟩, hdeclarations⟩ := List.forall_mem_cons.mp hdeclarations
    obtain ⟨first, more, hfirst, hstarts⟩ := exists_startsType_of_declares style htree hdeclares
    obtain ⟨next, rest, hrest⟩ := exists_front (declarations.flatMap (Tree.words style)) TokenKind.eof.word []
    rw [List.flatMap_cons, List.append_assoc, hrest] at h
    have hfront := h
    rw [hfirst] at hfront
    have htokens : start.hasTokens = true := by
      rw [hfront.hasTokens_eq]
      revert hstarts
      cases first.kind <;> decide
    refine .get (.pos htokens (.kind hfront (.neg (by simp [hstarts]) ?_)))
    have hopen : tree.IsOpen → next.kind ≠ .elseWord := fun hopen =>
      absurd hopen (Tree.not_isOpen_of_declares hdeclares)
    refine ((takes_declaration hstyle htree hdeclares).ends h hopen).bind fun more parser h => ?_
    rw [← hrest] at h
    refine (ih hdeclarations h.2 (Nat.lt_of_succ_lt_succ hrounds)).imp fun found parser h' => ?_
    rw [List.length_cons, List.reverse_cons, List.append_assoc]
    exact ⟨by omega, h'.2⟩

/-- **A file is read from the tokens that are printed for it.** -/
theorem parse_of_words (hstyle : style.Sound) (hfile : (Tree.bare .file declarations).IsFile)
    (htokens : tokens.map Token.word = (Tree.bare .file declarations).words style ++ [TokenKind.eof.word]) :
    ∃ forest root, parse tokens = .ok forest ∧ forest.root = some root ∧
      forest.contents root = Tree.bare .file declarations := by
  obtain ⟨hdeclarations⟩ := hfile
  rw [Tree.words_file] at htokens
  have hahead : (Parser.start tokens).Ahead (declarations.flatMap (Tree.words style) ++
      [TokenKind.eof.word]) [] (Parser.start tokens) := by
    rw [← htokens]
    exact .self (Parser.start tokens)
  have hstatements : ∀ tree ∈ declarations, Takes statement style tree := fun tree hmem =>
    takes_statement hstyle (hdeclarations tree hmem).1
  have hrounds := length_le_flatMap hstatements
  have hread : Ends file (Parser.start tokens) fun _ parser =>
      parser.builder.Shows [Tree.bare .file declarations] := by
    refine .patience hahead ((ends_declarationsFrom hstyle hdeclarations hahead ?_).bind fun count parser h => ?_)
    · rw [List.length_append]
      omega
    · obtain ⟨more, hmore, hshows, -⟩ := h.2.grown.exists_more
      have hbuilder : parser.builder = more := hmore.trans more.empty_extend
      rw [← hbuilder] at hshows
      have hcount : declarations.reverse.length = count := by rw [List.length_reverse, h.1, Nat.zero_add]
      have hmakes : Build.Makes (.file count 1) declarations.reverse _ := Build.makes_file hcount
      rw [List.reverse_reverse] at hmakes
      exact (ensures_build _).mpr (hmakes hshows)
  obtain ⟨⟨⟩, parser, hrun, hshows⟩ := Ensures.exists_ok hread
  obtain ⟨forest, root, hfinish, hroot, hcontents⟩ := Builder.finish_of_shows hshows
  exact ⟨forest, root, by rw [parse, hrun]; exact hfinish, hroot, hcontents⟩

/-- What has been read is a file. -/
theorem isFile_of_parse {forest : Forest} (h : parse tokens = .ok forest) :
    ∃ root declarations, forest.root = some root ∧ forest.contents root = Tree.bare .file declarations ∧
      (Tree.bare .file declarations).IsFile := by
  have hyields := @yields_file (Parser.start tokens) (Build.grown_self {})
  rw [parse] at h
  cases hrun : file (Parser.start tokens) with
  | error fault parser => rw [hrun] at h; cases h
  | ok value parser =>
    rw [hrun] at h
    obtain ⟨declarations, hfile, hshows, -⟩ := hyields.of_ok hrun
    obtain ⟨forest', root, hfinish, hroot, hcontents⟩ := Builder.finish_of_shows hshows
    obtain rfl := Except.ok.inj (h.symm.trans hfinish)
    exact ⟨root, declarations, hroot, hcontents, hfile⟩

theorem isFile_of_read {source : String} {forest : Forest} (h : read source = .ok forest) :
    ∃ root declarations, forest.root = some root ∧
      forest.contents root = Tree.bare .file declarations ∧ (Tree.bare .file declarations).IsFile := by
  unfold read at h
  cases hscan : Token.scan source with
  | error fault =>
    rw [hscan] at h
    cases h
  | ok tokens =>
    rw [hscan] at h
    exact isFile_of_parse h

/-- **Reading inverts printing.** What has been read from a source is read again from the tokens that are
printed for it. -/
theorem read_inverts_print {source : String} {forest : Forest} (h : read source = .ok forest) :
    ∃ root, forest.root = some root ∧ ∀ tokens : List Token,
      tokens.map Token.word = Tree.words .full (forest.contents root) ++ [TokenKind.eof.word] →
        ∃ forest' root', parse tokens = .ok forest' ∧ forest'.root = some root' ∧
          forest'.contents root' = forest.contents root := by
  obtain ⟨root, declarations, hroot, hcontents, hfile⟩ := isFile_of_read h
  refine ⟨root, hroot, fun tokens htokens => ?_⟩
  rw [hcontents] at htokens ⊢
  exact parse_of_words Style.sound_full hfile htokens

/-- Two names behind one type, an array as a parameter, two variables where there is room for one statement,
an `else` behind two choices, a cast and clauses that are absent. -/
def crowded : String :=
  "int const n=-1,*p;char f(char v[3])\x7bif(v)if(n)int a,b;else return(char)-n*v[0];for(;;)break;\x7d"

/-- The program as it is printed. -/
def crowdedPrinted : String :=
  "const int n=-1;const int*p;char f(char*v)\x7bif(v)if(n)\x7bint a;int b;\x7d" ++
    "else return((char)(-(n)))*(v[0]);for(;;)break;\x7d"

theorem read_inverts_print_crowded :
    ∃ forest root tokens, read crowded = .ok forest ∧ forest.root = some root ∧
      Token.scan crowdedPrinted = .ok tokens ∧
      tokens.map Token.word = Tree.words .full (forest.contents root) ++ [TokenKind.eof.word] ∧
      ∃ forest' root', parse tokens = .ok forest' ∧ forest'.root = some root' ∧
        forest'.contents root' = forest.contents root := by
  have hprint : (read crowded).toOption.any (fun forest => forest.root.any fun root =>
      (Token.scan crowdedPrinted).toOption.any fun tokens => tokens.map Token.word ==
        Tree.words .full (forest.contentsWithin forest.size root) ++ [TokenKind.eof.word]) = true := by
    decide +kernel
  cases hread : read crowded with
  | error fault => simp [hread, Except.toOption] at hprint
  | ok forest =>
    cases hscan : Token.scan crowdedPrinted with
    | error fault => simp [hread, hscan, Except.toOption] at hprint
    | ok tokens =>
      obtain ⟨root, hroot, h⟩ := read_inverts_print hread
      have htokens : tokens.map Token.word =
          Tree.words .full (forest.contents root) ++ [TokenKind.eof.word] := by
        rw [Forest.contents_eq_contentsWithin]
        simpa [hread, hscan, hroot, Except.toOption] using hprint
      exact ⟨forest, root, tokens, rfl, hroot, rfl, htokens, h tokens htokens⟩

end Grammar

end MiniC
