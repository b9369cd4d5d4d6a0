import Yurin.Proofs.Parser.Totality
import Yurin.Proofs.Skeleton.ReparseDeclarations

/-!
# The round trip of skeletons

Writing a skeleton as a source and parsing that source gives the skeleton back:
`parse_source`. The lexer finds the pieces of the source, the parser the declarations in the pieces,
and the tree builds the skeleton.
-/

namespace Yurin.Skeleton

open Yurin.Parser

/-- What comes after a declaration is not a word that no declaration begins with. -/
theorem EndsDeclaration.ne_word {k : Kind} (h : EndsDeclaration k) {w : Keyword}
    (hw : (Kind.keyword w).startsDeclaration = false) : k ≠ .keyword w := by
  rintro rfl
  rcases h with h | h | h
  · cases h
  · cases h
  · rw [hw] at h
    cases h

theorem packageHeader?_yields (parts : List Bytes) :
    Yields packageHeader? (headerPieces parts) EndsDeclaration
      fun header => ∀ imports ds, SourceFile.packageParts ⟨header, imports, ds⟩ = parts := by
  intro mode s qs tail hb hn
  unfold packageHeader?
  by_cases hnil : parts = []
  · subst hnil
    have hb : s.Before qs tail := hb
    have hne : opening qs tail ≠ .keyword .package := hn.ne_word rfl
    rw [ensures_bind, ensures_isAt, ensures_ite, hb.kind_eq, if_neg (by simpa using hne)]
    exact ⟨fun _ _ => rfl, .refl s, hb⟩
  · rw [headerPieces, if_neg (by simpa using hnil)] at hb
    have hb : s.Before (.word .package :: (dottedPieces parts ++ qs)) tail :=
      hb.congr (by simp)
    rw [ensures_bind, ensures_isAt, ensures_ite, hb.kind_eq, if_pos (by rfl)]
    refine advance_word_then (.refl s) hb fun keyword s₁ _ hc hb₁ => ?_
    refine (dottedName_yields hnil).then hc hb₁ (hn.markIn.ne (by decide)) ?_
    rintro _ s₂ ⟨name, rfl, hname⟩ hc hb₂
    exact ⟨fun _ _ => hname, hc, hb₂⟩

/-- No import line follows. -/
theorem imports_absent : Yields (collect importStep) [] EndsDeclaration (· = []) := by
  intro mode s qs tail hb hn
  have hb : s.Before qs tail := hb
  have hne : opening qs tail ≠ .keyword .import_ := hn.ne_word rfl
  have hstop : Ensures importStep mode s fun found s' => found = .stop ∧ s' = s := by
    unfold importStep
    rw [ensures_bind, ensures_isAt, ensures_ite, hb.kind_eq, if_neg (by simpa using hne)]
    exact ⟨rfl, rfl⟩
  refine (collect_none hstop).mono ?_
  rintro _ _ ⟨rfl, rfl⟩
  exact ⟨rfl, .refl _, hb⟩

section File

variable {P : Productions} {mode : LineMode} {s : State} {tail : List Lexeme}

theorem declarationStep_finds {ps : List Piece} {d : Declaration} (hd : Declares P ps d) :
    FindsItem (declarationStep P) (ps ++ [.lineEnd]) EndsDeclaration fun tree => Builds tree d := by
  intro mode s qs tail hb hn
  have hne : opening ((ps ++ [.lineEnd]) ++ qs) tail ≠ .eof := by
    intro h
    have hopen := hd.opens (.lineEnd :: qs) tail
    rw [List.append_assoc, List.singleton_append] at h
    rw [h] at hopen
    cases hopen
  unfold declarationStep
  rw [ensures_bind, ensures_isAt, ensures_ite, hb.kind_eq, if_neg (by simpa using hne)]
  exact progress_declaration hd .declaration endsDeclaration hb hn

variable {pieces : Declaration → List Piece} {ds : List Declaration}

/-- Declarations as lines begin with a token that declarations begin with. -/
theorem opening_lines (hds : ∀ d ∈ ds, Declares P (pieces d) d)
    (hend : (tail.headD default).token.kind = .eof) :
    EndsDeclaration (opening (ds.flatMap fun d => pieces d ++ [.lineEnd]) tail) := by
  cases ds with
  | nil => exact .inl hend
  | cons d rest =>
    rw [List.flatMap_cons, List.append_assoc]
    exact .inr (.inr ((hds d List.mem_cons_self).opens _ tail))

/-- The declarations of a file, up to the end of input. -/
theorem declarations_read (hds : ∀ d ∈ ds, Declares P (pieces d) d)
    (hb : s.Before (ds.flatMap fun d => pieces d ++ [.lineEnd]) tail)
    (hend : (tail.headD default).token.kind = .eof) :
    Ensures (collect (declarationStep P)) mode s fun trees s' =>
      List.Forall₂ (fun d tree => Builds tree d) ds trees ∧ Clean s s' := by
  rw [← List.append_nil (List.flatMap _ _)] at hb
  refine (collect_items hb (fun d hd => declarationStep_finds (hds d hd)) (fun d hd => ?_)
    (fun d hd qs tail => ?_) (.inl hend) fun s hb => ?_).mono ?_
  · rw [size_append]
    exact Nat.lt_add_right _ (hds d hd).pos
  · rw [List.append_assoc]
    exact .inr (.inr ((hds d hd).opens _ tail))
  · unfold declarationStep
    rw [ensures_bind, ensures_isAt, ensures_ite, hb.kind_eq, opening_nil, hend, if_pos (by rfl)]
    exact ⟨rfl, rfl⟩
  · exact fun trees s' ⟨htrees, hc, _⟩ => ⟨htrees, hc⟩

/-- **A file of declarations as lines** builds their skeleton, and no complaint is made. -/
theorem file_reads {parts : List Bytes} (hds : ∀ d ∈ ds, Declares P (pieces d) d)
    (hb : s.Before (headerPieces parts ++ ds.flatMap fun d => pieces d ++ [.lineEnd]) tail)
    (hend : (tail.headD default).token.kind = .eof) :
    Ensures (file P) mode s fun f s' => (∃ index, ofFile f = .ok (⟨parts, ds⟩, index)) ∧
      f.declarations.length = ds.length ∧ Clean s s' := by
  have hnext := opening_lines hds hend
  unfold file
  refine (packageHeader?_yields parts).then (.refl s) hb hnext fun header s₁ hheader hc hb₁ => ?_
  refine imports_absent.then hc hb₁ hnext fun imports s₂ _ hc hb₂ => ?_
  rw [ensures_bind]
  refine (declarations_read hds hb₂ hend).mono ?_
  rintro trees s₃ ⟨htrees, hc₃⟩
  rw [ensures_pure]
  obtain ⟨index, hindex⟩ := declarationsOf_builds htrees [] 0
  refine ⟨⟨index, ?_⟩, htrees.length_eq.symm, hc.trans hc₃⟩
  rw [ofFile, hindex]
  simp only [bind, Except.bind, hheader]
  rfl

end File

/-- **The text of linked pieces is parsed from a state before them**: the parser stands before the
pieces and the end of input, and has a level of its grammar for each token and two more. -/
theorem parse_textOf {ps : List Piece} (hps : Linked ps none) :
    ∃ s tail, s.Before ps tail ∧ (tail.headD default).token.kind = .eof ∧ s.complaints = [] ∧
      s.recovering = false ∧
      ∀ good : SourceFile → List Complaint → Prop,
        Ensures (file (grammarUpTo (size ps + 2))) .significant s
          (fun f s' => good f s'.complaints.reverse) →
        good (parse (textOf ps)).file (parse (textOf ps)).complaints := by
  obtain ⟨ts, final, htokens, hts, hfinal⟩ := tokensFrom_textOf Place.start hps
  obtain ⟨ls, e, hstream, hls, he⟩ := Significant.ofTokens_spells hps hts hfinal false none nofun
  have hlex : lex (textOf ps) = ts ++ [final] := htokens
  have hahead : (State.start ⟨ls ++ [e], []⟩).ahead = ls ++ [e] :=
    (State.start_ahead (by simp)).1
  have hdepth : (ls ++ [e]).length + 1 = size ps + 2 := by
    rw [size, ← hls.length_eq, List.length_append]
    rfl
  refine ⟨.start ⟨ls ++ [e], []⟩, [e], ⟨ls, hahead, hls, by simp⟩, he, State.start_complaints _,
    ?_, fun good hgood => ?_⟩
  · unfold State.start
    split <;> rfl
  · have hparsed : parse (textOf ps) = ⟨(readFile ⟨ls ++ [e], []⟩).1,
        (readFile ⟨ls ++ [e], []⟩).2.complaints.reverse⟩ := by
      rw [parse, hlex, parseTokens, hstream]
    rw [← hdepth] at hgood
    rw [hparsed]
    unfold readFile
    exact hgood

/-- **Parsing gives back every skeleton** from its source: there is no complaint, and the tree
builds the skeleton. -/
theorem parse_source (p : Package) (hp : p.isWritable = true) :
    (parse p.source).complaints = [] ∧ ∃ index, ofFile (parse p.source).file = .ok (p, index) := by
  obtain ⟨s, tail, hb, hend, hnone, -, hparse⟩ := parse_textOf (p.linked hp)
  obtain ⟨parts, ds⟩ := p
  simp only [Package.isWritable, Bool.and_eq_true] at hp
  have hds (d : Declaration) (hd : d ∈ ds) :
      Declares (grammarUpTo (size (Package.pieces ⟨parts, ds⟩) + 2)) d.pieces d := by
    have hline := size_line_le hd
    have hsize : size (Package.pieces ⟨parts, ds⟩) = size (headerPieces parts) +
        size (linesPieces ds) := size_append _ _
    exact d.declares (grammarUpTo_reparses _) ((membersWritable_iff ds).mp hp.2 d hd) (by omega)
  rw [Package.pieces, linesPieces_eq] at hb
  rw [← Package.textOf_pieces]
  refine hparse (fun f complaints => complaints = [] ∧ ∃ index, ofFile f = .ok (⟨parts, ds⟩, index))
    ((file_reads hds hb hend).mono ?_)
  rintro f s' ⟨hbuilt, -, hclean⟩
  exact ⟨by rw [hclean.complaints_eq, hnone]; rfl, hbuilt⟩

/-- A value type with a member, and an implementation whose modifier is `impl` as well. -/
theorem parse_source_box :
    let item : TypeReference := .regular false [utf8 "T"] [] true
    let box : TypeReference := .regular true [utf8 "demo", utf8 "Box"] [item, .nothing] false
    let p : Package := ⟨[utf8 "demo"],
      [.data [.impl, .sealed] .value (utf8 "Box") [utf8 "T"] [⟨utf8 "item", item⟩] [.dynamic]
        [.function [] (some box) (utf8 "size") [] [] (some item) [.nothing, .dynamic]],
       .impl [.impl] box .nothing []]⟩
    p.source = utf8 ("package demo\nimpl sealed val data Box<T>(item : T?) : dynamic \x7b\n"
      ++ "fun (exist demo.Box<T?, Nothing>).size() : T? / Nothing, dynamic\n\x7d\n"
      ++ "impl impl exist demo.Box<T?, Nothing> : Nothing\n") ∧
    (parse p.source).complaints = [] ∧
      ∃ index, ofFile (parse p.source).file = .ok (p, index) := by
  intro item box p
  exact ⟨by decide +kernel, parse_source p (by decide +kernel)⟩

end Yurin.Skeleton
