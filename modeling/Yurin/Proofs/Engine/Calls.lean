import Yurin.Engine
import Yurin.Proofs.Parser.Tokens
import Yurin.Proofs.Skeleton.Building

/-!
# Calls of the engine

What a call answers is a function of the source and the theme: `Analysis.of?` is the analysis of a
source without an engine, and `Analysis.highlights` are the highlights that it leads to. The cache
of an engine holds such analyses only (`Faithful`), so an answer from the cache is the answer that
the engine would have computed.

`Serves call good`: the call keeps the cache faithful, whatever it returns is `good`, it does return
when the caller is patient, and otherwise it is abandoned.

* `highlight_serves`, `tokens_serves`, `analyze_serves`, `diagnostics_serves`: what the calls
  return.
* `Reachable.faithful`: an engine stays faithful through any calls, abandoned ones included.
* `fails_only_abandoned`: calls have no other error than that they were abandoned.
-/

namespace Yurin

open Skeleton

/-! ## Analyses -/

/-- What the parser takes for a modifier is one, whatever tokens it has read. -/
theorem properModifiers_parseTokens (tokens : List Token) :
    ProperModifiers (leaves [(parseTokens tokens).file.node]) := by
  have hclosed := Significant.ofTokens_closed tokens false none (by simp)
  intro t ht
  obtain ⟨l, -, hl⟩ := Parser.mem_leaves_readFile hclosed ht
  obtain ⟨rfl, hk⟩ := Token.leaf?_modifier hl
  exact hk

/-- Building a skeleton does not fail on what the parser returns. -/
theorem ofFile_parse (source : Bytes) : ∃ built, ofFile (parse source).file = .ok built :=
  ofFile_ok (properModifiers_parseTokens (lex source))

namespace Analysis

/-- The analysis of a source. -/
def of? (source : Bytes) : Except BuildError Analysis := do
  let (package, index) ← ofFile (parse source).file
  let scopes := Scope.ofPackage package
  return {
    source, package, index, scopes
    tokens := lex source
    file := (parse source).file
    diagnostics := diagnose source
    bindings := bind (parse source).file package index scopes
    outline := package.outline }

/-- The highlights of an analysed source, pass after pass. -/
def highlights (theme : Theme) (a : Analysis) : List Highlight :=
  lexicalHighlights theme a.tokens ++ declaredHighlights theme a.file.node
    ++ referenceHighlights theme a.file a.package ++ bindingHighlights theme a.bindings
    ++ errorHighlights theme a.source a.diagnostics

/-- The parts of the analysis of a source. -/
theorem of?_eq_ok {source : Bytes} {a : Analysis} (h : of? source = .ok a) :
    a.source = source ∧ a.tokens = lex source ∧ a.file = (parse source).file ∧
      a.diagnostics = diagnose source ∧ a.bindings = bind a.file a.package a.index a.scopes := by
  obtain ⟨⟨package, index⟩, hbuilt⟩ := ofFile_parse source
  rw [of?, hbuilt] at h
  have heq := Except.ok.inj h
  subst heq
  dsimp only
  exact ⟨rfl, rfl, rfl, rfl, rfl⟩

end Analysis

/-! ## Calls -/

section Calls

variable {κ α β : Type}

/-- One call after the other, unless the first one fails. -/
theorem Call.run_bind (call : Call κ α) (f : α → Call κ β) (s : CallState κ) :
    (call >>= f).run.run s = match call.run.run s with
      | (.ok a, s') => (f a).run.run s'
      | (.error e, s') => (.error e, s') := by
  rw [ExceptT.run_bind, StateT.run_bind]
  rcases call.run.run s with ⟨_ | _, _⟩ <;> rfl

/-- The cached analyses are those of their sources. -/
def Faithful (cache : Option (Cache κ Analysis)) : Prop :=
  ∀ c ∈ cache, ∀ entry ∈ c.entries, Analysis.of? entry.2.source = .ok entry.2

/-- What a call that starts in `s` may end with. -/
structure Answers (good : α → Prop) (s : CallState κ)
    (ending : Except EngineError α × CallState κ) : Prop where
  faithful : Faithful ending.2.cache
  good : ∀ a, ending.1 = .ok a → good a
  patient : s.patience = none → ending.2.patience = none ∧ ∃ a, ending.1 = .ok a
  abandoned : ∀ err, ending.1 = .error err → ∃ next, err = .abandoned next

/-- **The call serves**: from a faithful cache, what it returns is `good`. -/
def Serves (call : Call κ α) (good : α → Prop) : Prop :=
  ∀ s : CallState κ, Faithful s.cache → Answers good s (call.run.run s)

/-- A step that returns. -/
theorem Answers.of_ok {good : α → Prop} {s s' : CallState κ} {a : α} (hcache : Faithful s'.cache)
    (hgood : good a) (hpatient : s.patience = none → s'.patience = none) :
    Answers good s (.ok a, s') where
  faithful := hcache
  good _ heq := Except.ok.inj heq ▸ hgood
  patient hp := ⟨hpatient hp, a, rfl⟩
  abandoned _ heq := nomatch heq

theorem serves_pure {good : α → Prop} {a : α} (h : good a) : Serves (pure a : Call κ α) good :=
  fun _ hs => .of_ok hs h id

theorem serves_bind {call : Call κ α} {f : α → Call κ β} {good : α → Prop} {good' : β → Prop}
    (h : Serves call good) (hf : ∀ a, good a → Serves (f a) good') :
    Serves (call >>= f) good' := by
  intro s hs
  obtain ⟨hcache, hgood, hlive, herror⟩ := h s hs
  rw [Call.run_bind]
  generalize call.run.run s = ending at hcache hgood hlive herror
  obtain ⟨e | a, s'⟩ := ending
  · refine ⟨hcache, nofun, fun hp => ?_, ?_⟩
    · obtain ⟨-, a, ha⟩ := hlive hp
      cases ha
    · rintro _ ⟨⟩
      exact herror e rfl
  · obtain ⟨hcache', hgood', hlive', herror'⟩ := hf a (hgood a rfl) s' hcache
    exact ⟨hcache', hgood', fun hp => hlive' (hlive hp).1, herror'⟩

/-- A call that only adds events. -/
theorem serves_emit (e : Event) : Serves (Engine.emit e : Call κ Unit) fun _ => True :=
  fun _ hs => .of_ok hs trivial id

theorem serves_emits (es : List Event) :
    Serves (es.mapM Engine.emit : Call κ (List Unit)) fun _ => True := by
  induction es with
  | nil => exact serves_pure trivial
  | cons e es ih =>
    rw [List.mapM_cons]
    exact serves_bind (serves_emit e) fun _ _ =>
      serves_bind ih fun _ _ => serves_pure trivial

theorem serves_checkpoint (next : Stage) :
    Serves (Engine.checkpoint next : Call κ Unit) fun _ => True := by
  intro s hs
  obtain ⟨cache, patience, events⟩ := s
  rcases patience with _ | _ | n
  · exact .of_ok hs trivial id
  · refine ⟨hs, fun _ _ => trivial, nofun, ?_⟩
    rintro _ ⟨⟩
    exact ⟨next, rfl⟩
  · exact .of_ok hs trivial nofun

theorem serves_skeleton {file : SourceFile} {built : Package × Index}
    (h : ofFile file = .ok built) :
    Serves (Engine.skeleton file : Call κ (Package × Index)) (· = built) := by
  rw [Engine.skeleton, h]
  exact serves_pure rfl

theorem serves_analyzeAfresh (source : Bytes) :
    Serves (Engine.analyzeAfresh source : Call κ Analysis)
      fun a => Analysis.of? source = .ok a := by
  obtain ⟨⟨package, index⟩, hbuilt⟩ := ofFile_parse source
  unfold Engine.analyzeAfresh
  refine serves_bind (serves_checkpoint _) fun _ _ => ?_
  refine serves_bind (serves_checkpoint _) fun _ _ => ?_
  refine serves_bind (serves_skeleton hbuilt) ?_
  rintro _ rfl
  refine serves_bind (serves_checkpoint _) fun _ _ => ?_
  refine serves_bind (serves_emit _) fun _ _ => serves_pure ?_
  rw [Analysis.of?, hbuilt]
  rfl

/-- The outcome of a call on a faithful cache, and the cache after it. -/
theorem serves_run {e : Engine κ} {call : Call κ α} {good : α → Prop}
    (h : Serves call good) (he : Faithful e.cache) (patience : Patience) :
    Faithful (e.run patience call).2.2.cache ∧
      (∀ a, e.eval patience call = .ok a → good a) ∧ ∃ a, e.eval none call = .ok a :=
  ⟨(h ⟨e.cache, patience, []⟩ he).faithful, (h ⟨e.cache, patience, []⟩ he).good,
    ((h ⟨e.cache, none, []⟩ he).patient rfl).2⟩

/-- A call on a faithful cache has no other error than that it was abandoned. -/
theorem serves_error {e : Engine κ} {call : Call κ α} {good : α → Prop} (h : Serves call good)
    (he : Faithful e.cache) {patience : Patience} {err : EngineError}
    (herr : e.eval patience call = .error err) : ∃ next, err = .abandoned next :=
  (h ⟨e.cache, patience, []⟩ he).abandoned err herr

/-! ## The cache -/

variable [DecidableEq κ]

theorem Cache.mem_add {c : Cache κ α} {key : κ} {value : α} {entry : κ × α}
    (h : entry ∈ (c.add key value).entries) : entry = (key, value) ∨ entry ∈ c.entries := by
  rcases List.mem_cons.mp (List.mem_of_mem_take h) with h | h
  · exact .inl h
  · exact .inr (List.mem_filter.mp h).1

/-- What is looked up was there, and looking it up adds nothing. -/
theorem Cache.mem_get (c : Cache κ α) (key : κ) :
    (∀ value, (c.get key).1 = some value → (key, value) ∈ c.entries) ∧
      ∀ entry ∈ (c.get key).2.entries, entry ∈ c.entries := by
  unfold Cache.get
  cases hfound : c.entries.lookup key with
  | none => exact ⟨nofun, fun _ h => h⟩
  | some value =>
    obtain ⟨earlier, later, hsplit, -⟩ := List.lookup_eq_some_iff.mp hfound
    have hmem : (key, value) ∈ c.entries := by simp [hsplit]
    refine ⟨fun v hv => Option.some.inj hv ▸ hmem, fun entry h => ?_⟩
    rcases Cache.mem_add h with rfl | h
    · exact hmem
    · exact h

/-- A remembered analysis is that of the source. -/
theorem serves_remembered? (e : Engine κ) (source : Bytes) :
    Serves (e.remembered? source) fun found => ∀ a ∈ found, Analysis.of? source = .ok a := by
  intro s hs
  obtain ⟨_ | c, patience, events⟩ := s
  · exact .of_ok hs (fun _ ha => nomatch ha) id
  · obtain ⟨hfound, hkept⟩ := c.mem_get (e.digest source)
    have hfaithful : ∀ entry ∈ c.entries, Analysis.of? entry.2.source = .ok entry.2 := hs c rfl
    refine .of_ok ?_ ?_ id
    · rintro _ ⟨⟩ entry h
      exact hfaithful entry (hkept entry h)
    · intro a ha
      obtain ⟨hget, hsource⟩ := Option.filter_eq_some_iff.mp ha
      have := hfaithful _ (hfound a hget)
      rwa [beq_iff_eq.mp hsource] at this

theorem serves_remember (e : Engine κ) {a : Analysis} (h : Analysis.of? a.source = .ok a) :
    Serves (e.remember a) fun _ => True := by
  intro s hs
  obtain ⟨_ | c, patience, events⟩ := s
  · exact .of_ok hs trivial id
  · refine .of_ok ?_ trivial id
    rintro _ ⟨⟩ entry hentry
    rcases Cache.mem_add hentry with rfl | hentry
    · exact h
    · exact hs c rfl entry hentry

/-! ## What calls return -/

namespace Engine

/-- **The analysis of a source**, from the cache or not. -/
theorem analyze_serves (e : Engine κ) (source : Bytes) :
    Serves (e.analyze source) fun a => Analysis.of? source = .ok a := by
  unfold analyze
  refine serves_bind (serves_remembered? e source) fun found hfound => ?_
  cases found with
  | some a => exact serves_bind (serves_emit _) fun _ _ => serves_pure (hfound a rfl)
  | none =>
    refine serves_bind (serves_analyzeAfresh source) fun a ha => ?_
    have hown : Analysis.of? a.source = .ok a := (Analysis.of?_eq_ok ha).1 ▸ ha
    exact serves_bind (serves_remember e hown) fun _ _ => serves_pure ha

theorem diagnostics_serves (e : Engine κ) (source : Bytes) :
    Serves (e.diagnostics source) (· = diagnose source) := by
  unfold diagnostics
  refine serves_bind (serves_remembered? e source) fun found hfound => ?_
  cases found with
  | some a => exact serves_pure (Analysis.of?_eq_ok (hfound a rfl)).2.2.2.1
  | none => exact serves_bind (serves_checkpoint _) fun _ _ => serves_pure rfl

/-- **The highlights of a source** are those of its analysis. -/
theorem highlight_serves (e : Engine κ) (source : Bytes) :
    Serves (e.highlight source) fun found =>
      ∃ a, Analysis.of? source = .ok a ∧ found = (a.highlights e.theme, a.diagnostics) := by
  unfold highlight
  refine serves_bind (e.analyze_serves source) fun a ha => ?_
  refine serves_bind (serves_checkpoint _) fun _ _ => ?_
  refine serves_bind (serves_checkpoint _) fun _ _ => ?_
  refine serves_bind (serves_emits _) fun _ _ => serves_pure ⟨a, ha, rfl⟩

/-- **The semantic tokens of a source** are those of its highlights. -/
theorem tokens_serves (e : Engine κ) (source : Bytes) (range : Option (Int × Int)) :
    Serves (e.tokens source range) fun data =>
      ∃ a, Analysis.of? source = .ok a ∧
        data = SemanticToken.encode
          (range.elim id (fun r => SemanticToken.onLines r.1 r.2)
            (SemanticToken.ofHighlights source (a.highlights e.theme))) := by
  unfold tokens
  refine serves_bind (e.highlight_serves source) ?_
  rintro _ ⟨a, ha, rfl⟩
  cases range with
  | none => exact serves_pure ⟨a, ha, rfl⟩
  | some => exact serves_pure ⟨a, ha, rfl⟩

theorem eval_tokens_eq_error_iff (e : Engine κ) (patience : Patience) (source : Bytes)
    (range : Option (Int × Int)) (cause : EngineError) :
    e.eval patience (e.tokens source range) = .error cause ↔
      e.eval patience (e.highlight source) = .error cause := by
  unfold eval run tokens
  rw [Call.run_bind]
  rcases (e.highlight source).run.run ⟨e.cache, patience, []⟩ with ⟨_ | found, s'⟩
  · exact ⟨fun h => congrArg _ (Except.error.inj h), fun h => congrArg _ (Except.error.inj h)⟩
  · have hfound : (Except.ok found : Except EngineError _) ≠ .error cause := by rintro ⟨⟩
    refine iff_of_false ?_ hfound
    cases range <;> rintro ⟨⟩

/-- **A call for tokens fails** exactly if one for highlights does, with its error as the cause. -/
theorem evalTokens_eq_error_iff (e : Engine κ) (patience : Patience) (source : Bytes)
    (range : Option (Int × Int)) (err : TokensError) :
    e.evalTokens patience source range = .error err ↔
      e.eval patience (e.highlight source) = .error err.cause := by
  rw [evalTokens, Except.mapError_eq_error_iff, ← eval_tokens_eq_error_iff e patience source range]
  constructor
  · rintro ⟨cause, h, rfl⟩
    exact h
  · intro h
    exact ⟨err.cause, h, rfl⟩

/-! ## Engines in use -/

/-- A call that an engine can get. -/
inductive Request
  | analyze (source : Bytes)
  | diagnostics (source : Bytes)
  | highlight (source : Bytes)
  | tokens (source : Bytes) (range : Option (Int × Int))

/-- The engine after a call with some patience. -/
def after (e : Engine κ) (patience : Patience) : Request → Engine κ
  | .analyze source => (e.run patience (e.analyze source)).2.2
  | .diagnostics source => (e.run patience (e.diagnostics source)).2.2
  | .highlight source => (e.run patience (e.highlight source)).2.2
  | .tokens source range => (e.run patience (e.tokens source range)).2.2

/-- The engines that are made with an empty cache, or none, and then used. -/
inductive Reachable : Engine κ → Prop
  | fresh (theme : Theme) (digest : Bytes → κ) (capacity : Option Nat) :
      Reachable ⟨theme, digest, capacity.map .empty⟩
  | after {e : Engine κ} (h : Reachable e) (patience : Patience) (request : Request) :
      Reachable (e.after patience request)

theorem after_faithful {e : Engine κ} (he : Faithful e.cache) (patience : Patience)
    (request : Request) : Faithful (e.after patience request).cache := by
  cases request with
  | analyze source => exact (serves_run (e.analyze_serves source) he patience).1
  | diagnostics source => exact (serves_run (e.diagnostics_serves source) he patience).1
  | highlight source => exact (serves_run (e.highlight_serves source) he patience).1
  | tokens source range => exact (serves_run (e.tokens_serves source range) he patience).1

/-- **An engine in use stays faithful.** -/
theorem Reachable.faithful {e : Engine κ} (h : Reachable e) : Faithful e.cache := by
  induction h with
  | fresh theme digest capacity =>
    cases capacity with
    | none => nofun
    | some n =>
      rintro _ ⟨⟩ entry hentry
      cases hentry
  | after _ patience request ih => exact after_faithful ih patience request

theorem create_reachable (theme : Theme) (size : Int) : Reachable (create theme size) := by
  unfold create
  split
  · exact .fresh theme id none
  · exact .fresh theme id (some size.toNat)

/-! ## Failures -/

/-- **Calls fail only when they are abandoned.** From any tokens in any order, what the parser takes
for modifiers are modifiers, and so building a skeleton does not fail. A patient caller gets an
answer from an engine in use, whatever the source, and an impatient one no other error than that the
call was abandoned. -/
theorem fails_only_abandoned {e : Engine κ} (he : e.Reachable) :
    (∀ tokens, ProperModifiers (leaves [(parseTokens tokens).file.node]) ∧
      ∃ built, ofFile (parseTokens tokens).file = .ok built) ∧
      ∀ source,
        (∃ a, e.eval none (e.analyze source) = .ok a) ∧
        (∃ found, e.eval none (e.highlight source) = .ok found) ∧
        (∃ found, e.eval none (e.diagnostics source) = .ok found) ∧
        ∀ patience err,
          e.eval patience (e.analyze source) = .error err ∨
            e.eval patience (e.highlight source) = .error err ∨
            e.eval patience (e.diagnostics source) = .error err →
          ∃ next, err = .abandoned next := by
  refine ⟨fun tokens => ?_, fun source => ?_⟩
  · have hproper := properModifiers_parseTokens tokens
    exact ⟨hproper, ofFile_ok hproper⟩
  have hanalyze := e.analyze_serves source
  have hhighlight := e.highlight_serves source
  have hdiagnostics := e.diagnostics_serves source
  refine ⟨(serves_run hanalyze he.faithful none).2.2, (serves_run hhighlight he.faithful none).2.2,
    (serves_run hdiagnostics he.faithful none).2.2, ?_⟩
  rintro patience err (herr | herr | herr)
  · exact serves_error hanalyze he.faithful herr
  · exact serves_error hhighlight he.faithful herr
  · exact serves_error hdiagnostics he.faithful herr

/-- Modifiers, brackets and words in the wrong places, read forwards and backwards, and an engine
whose only call so far was abandoned. -/
theorem fails_only_abandoned_malformed :
    let source := utf8 "open sealed ] data private : [ val impl internal"
    let e := (create .default 1).after (some 1) (.analyze source)
    let outcome := e.eval (some 3) (e.highlight source)
    (∃ built, ofFile (parseTokens (lex source).reverse).file = .ok built) ∧
      (∃ found, e.eval none (e.highlight source) = .ok found) ∧
      outcome.isOk = false ∧ ∀ err, outcome = .error err → ∃ next, err = .abandoned next := by
  intro source e outcome
  have he : e.Reachable := (create_reachable .default 1).after (some 1) (.analyze source)
  obtain ⟨hbuilt, hsource⟩ := fails_only_abandoned he
  obtain ⟨-, hfound, -, herror⟩ := hsource source
  refine ⟨(hbuilt _).2, hfound, by decide +kernel, fun err herr => ?_⟩
  exact herror (some 3) err (.inr (.inl herr))

end Engine

end Calls

end Yurin
