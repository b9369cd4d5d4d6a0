import Yurin.Proofs.Parser.LockstepDeclarations
import Yurin.Proofs.Parser.Totality

/-!
# Line breaks inside brackets

`parseTokens_breakVariant`: line breaks between parentheses or square brackets are insignificant.
Two token lists with the same significant tokens, whose line breaks differ only where the innermost
open bracket is `(` or `[`, are parsed to the same file, if the first is parsed without complaints.
-/

namespace Yurin

namespace Significant

/-- The brackets that are open before the token number `i`, the innermost first. -/
def bracketsBefore (stream : Significant) (i : Nat) : List Mark :=
  ((stream.lexemes.take i).map (·.token.kind)).foldl bracketsAfter []

/-- **Variants of line breaks.** Two streams have the same tokens, those that no rule recognizes
included, and where one has a line break and the other has none, the innermost open bracket is a
parenthesis or a square one. -/
structure BreakVariant (first second : Significant) : Prop where
  tokens : second.lexemes.map Lexeme.token = first.lexemes.map Lexeme.token
  unrecognized : second.unrecognized = first.unrecognized
  breaks : ∀ i < first.lexemes.length,
    second.lexemes[i]?.map Lexeme.afterBreak ≠ first.lexemes[i]?.map Lexeme.afterBreak →
      breaksCount (first.bracketsBefore i) = false

end Significant

/-- Streams agree when their breaks are the same at every place where breaks count. -/
theorem Agree.of_breaks {ls ms : List Lexeme} {brackets : List Mark}
    (htokens : ms.map Lexeme.token = ls.map Lexeme.token)
    (hbreaks : ∀ i < ls.length, ms[i]?.map Lexeme.afterBreak ≠ ls[i]?.map Lexeme.afterBreak →
      breaksCount (((ls.take i).map (·.token.kind)).foldl bracketsAfter brackets) = false) :
    Agree brackets ls ms := by
  induction ls generalizing ms brackets with
  | nil =>
    rw [List.map_nil, List.map_eq_nil_iff] at htokens
    exact htokens ▸ .nil brackets
  | cons l ls ih =>
    obtain ⟨m, ms, rfl⟩ : ∃ m ms', ms = m :: ms' :=
      List.exists_cons_of_ne_nil fun h => by simp [h] at htokens
    rw [List.map_cons, List.map_cons, List.cons.injEq] at htokens
    -- Token `i` of the rest is token `i + 1` of the whole, behind the same brackets.
    refine .cons htokens.1 (fun hcount => ?_) (ih htokens.2 fun i hi hne => ?_)
    · refine Decidable.byContradiction fun hne => ?_
      have hno : breaksCount brackets = false := hbreaks 0 (by simp) (by simpa using hne)
      exact Bool.noConfusion (hcount.symm.trans hno)
    · exact hbreaks (i + 1) (by simpa using hi) (by simpa using hne)

namespace Parser

/-- The parser starts abreast on two variants of one stream. -/
theorem Abreast.start {first second : Significant}
    (hclosed : ∃ l ∈ first.lexemes, l.token.kind = .eof) (h : first.BreakVariant second) :
    Abreast [] (.start first) (.start second) := by
  have hagree : Agree [] first.lexemes second.lexemes := .of_breaks h.tokens h.breaks
  have hfirst : first.lexemes ≠ [] := by
    obtain ⟨l, hl, -⟩ := hclosed
    exact List.ne_nil_of_mem hl
  have hsecond : second.lexemes ≠ [] := by
    rwa [← List.length_pos_iff, hagree.length_eq, List.length_pos_iff]
  obtain ⟨ha, hover, hzero⟩ := State.start_ahead hfirst
  obtain ⟨ha', hover', hzero'⟩ := State.start_ahead hsecond
  refine ⟨?_, ?_, hzero'.trans hzero.symm, ?_, hover'.trans hover.symm, ?_⟩
  · rwa [ha, ha']
  · rwa [State.Closed, ha]
  · rw [State.start_complaints, State.start_complaints, h.unrecognized]
  · exact ⟨State.start_calm first, State.start_calm second⟩

/-- Two variants of a stream, of which the first is read without complaints, are read to the same
file. -/
theorem readFile_breakVariant {first second : Significant}
    (hclosed : ∃ l ∈ first.lexemes, l.token.kind = .eof) (h : first.BreakVariant second)
    (hquiet : (readFile first).2.complaints = []) :
    (readFile second).1 = (readFile first).1 ∧ (readFile second).2.complaints = [] := by
  have hfile : Steady .significant (file (grammarUpTo (first.lexemes.length + 1))) :=
    file_lockstep (grammarUpTo_lockstep _)
  have hsilent : (State.start first).complaints = [] :=
    List.suffix_nil.mp (hquiet ▸ hfile.grows (.start first))
  have hdepth : second.lexemes.length = first.lexemes.length := by
    simpa only [List.length_map] using congrArg List.length h.tokens
  obtain ⟨hsame, hafter⟩ :=
    hfile.agrees (fun _ => rfl) trivial (Abreast.start hclosed h) (hquiet.trans hsilent.symm)
  rw [readFile, hdepth]
  exact ⟨hsame, hafter.complaints.trans hquiet⟩

end Parser

/-- **Line breaks inside parentheses and square brackets are insignificant.** Take two token lists
with the same significant tokens, whose line breaks differ only before tokens whose innermost open
bracket is a parenthesis or a square one. If the first is parsed without a complaint, so is the
second, and to the same file. -/
theorem parseTokens_breakVariant {first second : List Token}
    (h : (Significant.ofTokens false none first).BreakVariant (.ofTokens false none second))
    (hclean : (parseTokens first).complaints = []) :
    (parseTokens second).complaints = [] ∧
      (parseTokens second).file = (parseTokens first).file := by
  have hclosed := Significant.ofTokens_closed first false none (by simp)
  have hquiet := List.reverse_eq_nil_iff.mp hclean
  obtain ⟨hfile, hsilent⟩ := Parser.readFile_breakVariant hclosed h hquiet
  exact ⟨List.reverse_eq_nil_iff.mpr hsilent, hfile⟩

/-- The blanks inside the parentheses of a call, turned into line breaks. -/
theorem parseTokens_breakVariant_call :
    let spaced := lex (utf8 "val x = f(a (b) - c[0 + 1])")
    let broken := spaced.map fun t =>
      if t.kind = .whitespace ∧ 10 < t.start then { t with kind := .newline } else t
    (Significant.ofTokens false none spaced).BreakVariant (.ofTokens false none broken) ∧
      Significant.ofTokens false none broken ≠ .ofTokens false none spaced ∧
      (parseTokens spaced).complaints = [] ∧ (parseTokens broken).complaints = [] ∧
      (parseTokens broken).file = (parseTokens spaced).file := by
  intro spaced broken
  have hvariant : (Significant.ofTokens false none spaced).BreakVariant
      (.ofTokens false none broken) :=
    ⟨by decide +kernel, by decide +kernel, by decide +kernel⟩
  have hclean : (parseTokens spaced).complaints = [] := by decide +kernel
  refine ⟨hvariant, fun h => ?_, hclean, parseTokens_breakVariant hvariant hclean⟩
  have hbreaks := congrArg (fun stream => stream.lexemes.map Lexeme.afterBreak) h
  revert hbreaks
  decide +kernel

end Yurin
