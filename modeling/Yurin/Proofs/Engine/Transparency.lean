import Yurin.Proofs.Engine.Calls

/-!
# The cache is transparent

`history_transparent`: whatever the cache of an engine does with the analyses that are added to it,
the calls of the engine return what an engine without a cache returns.

Nothing is assumed of the digest, so different sources may have the same key, and of the cache only
that it answers a key with a value that was added under this key, or not at all. A call looks into
the cache once, before it adds anything, and so such a cache is one that holds before each call any
of the entries that were added before. `History` takes a new one for every call. An engine that
keeps its own cache from call to call is a special case (`serve_fresh_history`).

* `Engine.expected`: what a call has to return, without an engine.
* `History.faithful`: every entry that was ever added is the analysis of its source.
* `analyze_error_entries`: an analysis that is given up adds nothing to the cache.
-/

namespace Yurin

open Skeleton

namespace Engine

variable {κ α β : Type}

/-! ## Answers -/

/-- What a call returns. -/
inductive Answer
  | analysis (a : Analysis)
  | diagnostics (found : List Diagnostic)
  | highlights (spans : List Highlight) (found : List Diagnostic)
  | tokens (data : List UInt32)

/-- What a call has to return. -/
def expected (theme : Theme) : Request → Except BuildError Answer
  | .analyze source => (Analysis.of? source).map .analysis
  | .diagnostics source => .ok (.diagnostics (diagnose source))
  | .highlight source =>
    (Analysis.of? source).map fun a => .highlights (a.highlights theme) a.diagnostics
  | .tokens source range =>
    (Analysis.of? source).map fun a => .tokens (SemanticToken.encode
      (range.elim id (fun r => SemanticToken.onLines r.1 r.2)
        (SemanticToken.ofHighlights source (a.highlights theme))))

/-- The diagnostics that come with the highlights are those of the source. -/
theorem expected_highlight (theme : Theme) (source : Bytes) :
    ∃ spans, expected theme (.highlight source) = .ok (.highlights spans (diagnose source)) := by
  obtain ⟨built, hbuilt⟩ := ofFile_parse source
  obtain ⟨a, ha⟩ : ∃ a, Analysis.of? source = .ok a := by
    rw [Analysis.of?, hbuilt]
    exact ⟨_, rfl⟩
  refine ⟨a.highlights theme, ?_⟩
  rw [expected, ha, ← (Analysis.of?_eq_ok ha).2.2.2.1]
  rfl

/-- A call that serves returns what is wanted, if all good results are, and it does return when the
caller is patient. -/
theorem serves_answer {e : Engine κ} {call : Call κ α} {good : α → Prop} (h : Serves call good)
    (he : Faithful e.cache) (patience : Patience) {wrap : α → Answer}
    {wanted : Except BuildError Answer} (hgood : ∀ a, good a → wanted = .ok (wrap a)) :
    (∀ x, (e.eval patience call).map wrap = .ok x → wanted = .ok x) ∧
      ∃ x, (e.eval none call).map wrap = .ok x := by
  obtain ⟨-, hany, a, ha⟩ := serves_run h he patience
  refine ⟨fun x hx => ?_, wrap a, by rw [ha]; rfl⟩
  cases heval : e.eval patience call with
  | error err => rw [heval] at hx; cases hx
  | ok b =>
    rw [heval] at hx
    cases hx
    exact hgood b (hany b heval)

/-! ## Entries of the cache -/

/-- The entries of a cache, if there is one. -/
def entriesOf (cache : Option (Cache κ Analysis)) : List (κ × Analysis) :=
  cache.toList.flatMap Cache.entries

@[simp] theorem entriesOf_some (c : Cache κ Analysis) : entriesOf (some c) = c.entries :=
  List.flatMap_singleton Cache.entries c

theorem faithful_of_entries {cache : Option (Cache κ Analysis)}
    (h : ∀ entry ∈ entriesOf cache, Analysis.of? entry.2.source = .ok entry.2) :
    Faithful cache :=
  fun c hc entry hentry => h entry (List.mem_flatMap.mpr ⟨c, Option.mem_toList.mpr hc, hentry⟩)

theorem Faithful.entries {cache : Option (Cache κ Analysis)} (h : Faithful cache) :
    ∀ entry ∈ entriesOf cache, Analysis.of? entry.2.source = .ok entry.2 := by
  intro entry hentry
  obtain ⟨c, hc, hentry⟩ := List.mem_flatMap.mp hentry
  exact h c (Option.mem_toList.mp hc) entry hentry

/-- The call adds nothing to the cache. -/
def AddsNothing (call : Call κ α) : Prop :=
  ∀ s : CallState κ, entriesOf (call.run.run s).2.cache ⊆ entriesOf s.cache

/-- The call adds nothing to the cache when it fails. -/
def FailsCleanly (call : Call κ α) : Prop :=
  ∀ (s : CallState κ) (err : EngineError), (call.run.run s).1 = .error err →
    entriesOf (call.run.run s).2.cache ⊆ entriesOf s.cache

theorem addsNothing_bind {call : Call κ α} {f : α → Call κ β} (h : AddsNothing call)
    (hf : ∀ a, AddsNothing (f a)) : AddsNothing (call >>= f) := by
  intro s
  have hfirst := h s
  rw [Call.run_bind]
  generalize call.run.run s = ending at hfirst
  obtain ⟨err | a, s'⟩ := ending
  · exact hfirst
  · exact List.Subset.trans (hf a s') hfirst

theorem failsCleanly_of_returns {call : Call κ α} (h : ∀ s, ∃ a, (call.run.run s).1 = .ok a) :
    FailsCleanly call := by
  intro s err herr
  obtain ⟨a, ha⟩ := h s
  rw [ha] at herr
  cases herr

theorem failsCleanly_bind {call : Call κ α} {f : α → Call κ β} (h : AddsNothing call)
    (hf : ∀ a, FailsCleanly (f a)) : FailsCleanly (call >>= f) := by
  intro s err herr
  have hfirst := h s
  rw [Call.run_bind] at herr ⊢
  generalize call.run.run s = ending at hfirst herr
  obtain ⟨_ | a, s'⟩ := ending
  · exact hfirst
  · exact List.Subset.trans (hf a s' err herr) hfirst

theorem checkpoint_addsNothing (next : Stage) : AddsNothing (checkpoint next : Call κ Unit) := by
  rintro ⟨cache, patience, events⟩
  rcases patience with _ | _ | n <;> exact List.Subset.refl _

theorem analyzeAfresh_addsNothing (source : Bytes) :
    AddsNothing (analyzeAfresh source : Call κ Analysis) := by
  have hskeleton : AddsNothing (skeleton (parseTokens (lex source)).file : Call κ _) := by
    intro s
    unfold skeleton
    split <;> exact List.Subset.refl _
  unfold analyzeAfresh
  refine addsNothing_bind (checkpoint_addsNothing _) fun _ => ?_
  refine addsNothing_bind (checkpoint_addsNothing _) fun _ => ?_
  refine addsNothing_bind hskeleton fun built => ?_
  refine addsNothing_bind (checkpoint_addsNothing _) fun _ => ?_
  exact addsNothing_bind (fun _ => List.Subset.refl _) fun _ _ => List.Subset.refl _

variable [DecidableEq κ]

theorem remembered?_addsNothing (e : Engine κ) (source : Bytes) :
    AddsNothing (e.remembered? source) := by
  rintro ⟨_ | c, patience, events⟩
  · exact List.Subset.refl _
  · intro entry hentry
    have hcache : ((e.remembered? source).run.run ⟨some c, patience, events⟩).2.cache =
        some (c.get (e.digest source)).2 := rfl
    rw [hcache, entriesOf_some] at hentry
    rw [entriesOf_some]
    exact (c.mem_get (e.digest source)).2 entry hentry

theorem analyze_failsCleanly (e : Engine κ) (source : Bytes) : FailsCleanly (e.analyze source) := by
  unfold analyze
  refine failsCleanly_bind (remembered?_addsNothing e source) fun found => ?_
  cases found with
  | some a => exact failsCleanly_of_returns fun _ => ⟨a, rfl⟩
  | none =>
    refine failsCleanly_bind (analyzeAfresh_addsNothing source) fun a => ?_
    exact failsCleanly_of_returns fun _ => ⟨a, rfl⟩

/-! ## Histories -/

/-- The outcome of a call with some patience. -/
def answer (e : Engine κ) (patience : Patience) : Request → Except EngineError Answer
  | .analyze source => (e.eval patience (e.analyze source)).map .analysis
  | .diagnostics source => (e.eval patience (e.diagnostics source)).map .diagnostics
  | .highlight source =>
    (e.eval patience (e.highlight source)).map fun found => .highlights found.1 found.2
  | .tokens source range => (e.eval patience (e.tokens source range)).map .tokens

/-- **A call on a faithful cache returns what is expected**, if it returns, and it does return when
the caller is patient. -/
theorem answer_expected {e : Engine κ} (he : Faithful e.cache) (patience : Patience)
    (request : Request) :
    (∀ x, e.answer patience request = .ok x → expected e.theme request = .ok x) ∧
      ∃ x, e.answer none request = .ok x := by
  cases request with
  | analyze source =>
    refine serves_answer (e.analyze_serves source) he patience fun a ha => ?_
    rw [expected, ha]
    rfl
  | diagnostics source =>
    refine serves_answer (e.diagnostics_serves source) he patience fun found hfound => ?_
    rw [expected, hfound]
  | highlight source =>
    refine serves_answer (e.highlight_serves source) he patience ?_
    rintro _ ⟨a, ha, rfl⟩
    rw [expected, ha]
    rfl
  | tokens source range =>
    refine serves_answer (e.tokens_serves source range) he patience ?_
    rintro _ ⟨a, ha, rfl⟩
    rw [expected, ha]
    rfl

/-- An analysis that is given up adds nothing to the cache. -/
theorem analyze_error_entries {e : Engine κ} {patience : Patience} {source : Bytes}
    {err : EngineError} (h : e.answer patience (.analyze source) = .error err) :
    entriesOf (e.after patience (.analyze source)).cache ⊆ entriesOf e.cache := by
  refine e.analyze_failsCleanly source ⟨e.cache, patience, []⟩ err ?_
  cases heval : e.eval patience (e.analyze source) with
  | error err' =>
    rw [answer, heval] at h
    exact heval.trans (by simpa [Except.map] using h)
  | ok a => rw [answer, heval] at h; cases h

/-- An engine with a theme and no cache. -/
def uncached (theme : Theme) (digest : Bytes → κ) : Engine κ := ⟨theme, digest, none⟩

theorem uncached_answer {theme : Theme} {digest : Bytes → κ} {request : Request} {x : Answer}
    (h : expected theme request = .ok x) : (uncached theme digest).answer none request = .ok x := by
  have hfaithful : Faithful (uncached theme digest).cache := nofun
  obtain ⟨y, hy⟩ := (answer_expected hfaithful none request).2
  have hexpected : expected theme request = .ok y := (answer_expected hfaithful none request).1 y hy
  obtain rfl : y = x := Except.ok.inj (hexpected.symm.trans h)
  exact hy

/-- **A history of calls**: the entries that were added to the cache, and what each call returned.
Before a call the cache holds any of the entries that were added so far. -/
inductive History (theme : Theme) (digest : Bytes → κ) :
    List (κ × Analysis) → List (Request × Except EngineError Answer) → Prop
  | start : History theme digest [] []
  | call {added : List (κ × Analysis)} {log : List (Request × Except EngineError Answer)}
      (h : History theme digest added log) {cache : Option (Cache κ Analysis)}
      (held : entriesOf cache ⊆ added) (patience : Patience) (request : Request) :
      History theme digest
        (added ++ entriesOf ((⟨theme, digest, cache⟩ : Engine κ).after patience request).cache)
        (log ++ [(request, (⟨theme, digest, cache⟩ : Engine κ).answer patience request)])

namespace History

variable {theme : Theme} {digest : Bytes → κ} {added : List (κ × Analysis)}
  {log : List (Request × Except EngineError Answer)}

/-- Every entry that was added is the analysis of its source. -/
theorem faithful (h : History theme digest added log) :
    ∀ entry ∈ added, Analysis.of? entry.2.source = .ok entry.2 := by
  induction h with
  | start => exact List.forall_mem_nil _
  | @call added log _ cache held patience request ih =>
    intro entry hentry
    rcases List.mem_append.mp hentry with hentry | hentry
    · exact ih entry hentry
    · have hcache : Faithful cache := faithful_of_entries fun entry hmem => ih entry (held hmem)
      exact Faithful.entries (after_faithful hcache patience request) entry hentry

/-- Every answer is the expected one. -/
theorem answers (h : History theme digest added log) {request : Request} {x : Answer}
    (hx : (request, .ok x) ∈ log) : expected theme request = .ok x := by
  induction h with
  | start => cases hx
  | @call added log h cache held patience request' ih =>
    rcases List.mem_append.mp hx with hx | hx
    · exact ih hx
    · obtain ⟨rfl, hanswer⟩ := Prod.mk.inj (List.mem_singleton.mp hx)
      -- Whatever the cache of this call holds was added before.
      have hcache : Faithful cache :=
        faithful_of_entries fun entry hmem => h.faithful entry (held hmem)
      exact (answer_expected (e := ⟨theme, digest, cache⟩) hcache patience request).1 x hanswer.symm

end History

/-- What the calls return that an engine gets one after the other. -/
def serve (e : Engine κ) : List (Patience × Request) → List (Request × Except EngineError Answer)
  | [] => []
  | (patience, request) :: rest =>
    (request, e.answer patience request) :: (e.after patience request).serve rest

/-- **The calls of one engine are a history**: what the engine remembers was added before. -/
theorem serve_history {theme : Theme} {digest : Bytes → κ} {cache : Option (Cache κ Analysis)}
    {added : List (κ × Analysis)} {log : List (Request × Except EngineError Answer)}
    (h : History theme digest added log) (held : entriesOf cache ⊆ added)
    (calls : List (Patience × Request)) :
    ∃ added', History theme digest added'
      (log ++ (⟨theme, digest, cache⟩ : Engine κ).serve calls) := by
  induction calls generalizing cache added log with
  | nil => exact ⟨added, by rwa [serve, List.append_nil]⟩
  | cons call rest ih =>
    obtain ⟨patience, request⟩ := call
    have hafter : (⟨theme, digest, cache⟩ : Engine κ).after patience request =
        ⟨theme, digest, ((⟨theme, digest, cache⟩ : Engine κ).after patience request).cache⟩ := by
      cases request <;> rfl
    obtain ⟨added', hrest⟩ :=
      ih (h.call held patience request) (List.subset_append_right added _)
    rw [← hafter, List.append_assoc] at hrest
    exact ⟨added', hrest⟩

/-- **An engine in use has a history**, from its first call on. -/
theorem serve_fresh_history (theme : Theme) (digest : Bytes → κ) (capacity : Option Nat)
    (calls : List (Patience × Request)) :
    ∃ added, History theme digest added
      ((⟨theme, digest, capacity.map .empty⟩ : Engine κ).serve calls) := by
  have hempty : entriesOf (capacity.map .empty : Option (Cache κ Analysis)) ⊆ [] := by
    cases capacity <;> exact List.Subset.refl []
  exact serve_history .start hempty calls

/-- **The cache is transparent.** In any history of calls, whatever the digest and whatever the
cache forgets, a call that returns a result returns the one of an engine without a cache and a
patient caller. The diagnostics are those that come with the highlights. Every entry of the cache is
the whole analysis of its source, and an analysis that is given up adds none. -/
theorem history_transparent {theme : Theme} {digest : Bytes → κ} {added : List (κ × Analysis)}
    {log : List (Request × Except EngineError Answer)} (h : History theme digest added log) :
    (∀ request x, (request, .ok x) ∈ log →
      (uncached theme digest).answer none request = .ok x) ∧
    (∀ source found, (.diagnostics source, .ok (.diagnostics found)) ∈ log →
      (∃ spans, (uncached theme digest).answer none (.highlight source) =
        .ok (.highlights spans found)) ∧
      ∀ spans found', (.highlight source, .ok (.highlights spans found')) ∈ log →
        found' = found) ∧
    (∀ entry ∈ added, (uncached theme digest).answer none (.analyze entry.2.source) =
      .ok (.analysis entry.2)) ∧
    ∀ (e : Engine κ) patience source err, e.answer patience (.analyze source) = .error err →
      entriesOf (e.after patience (.analyze source)).cache ⊆ entriesOf e.cache := by
  refine ⟨fun request x hx => uncached_answer (h.answers hx), fun source found hfound => ?_,
    fun entry hentry => uncached_answer ?_, fun e patience source err => analyze_error_entries⟩
  · obtain ⟨spans, hspans⟩ := expected_highlight theme source
    obtain rfl : diagnose source = found :=
      Answer.diagnostics.inj (Except.ok.inj (h.answers hfound))
    refine ⟨⟨spans, uncached_answer hspans⟩, fun spans' found' hhighlight => ?_⟩
    have hsame := Except.ok.inj (hspans.symm.trans (h.answers hhighlight))
    exact (Answer.highlights.inj hsame).2.symm
  · rw [expected, h.faithful entry hentry]
    rfl

/-- All sources have one digest, and the cache has room for one. The second call is given up after
its analysis was added, the third one before it has begun, and the last one is answered from the
cache. -/
theorem history_transparent_collision :
    let log := (⟨.default, fun _ => (), some (.empty 1)⟩ : Engine Unit).serve
      [(none, .highlight (utf8 "data A")), (some 3, .highlight (utf8 "data B")),
        (some 0, .diagnostics (utf8 "data A")), (some 0, .diagnostics (utf8 "data B"))]
    log.map (·.2.isOk) = [true, false, false, true] ∧
      ∃ added, History .default (fun _ => ()) added log ∧
        ∀ request x, (request, .ok x) ∈ log →
          (uncached .default fun _ => ()).answer none request = .ok x := by
  intro log
  obtain ⟨added, h⟩ : ∃ added, History .default (fun _ => ()) added log :=
    serve_fresh_history .default (fun _ => ()) (some 1) _
  exact ⟨by decide +kernel, added, h, (history_transparent h).1⟩

end Engine

end Yurin
