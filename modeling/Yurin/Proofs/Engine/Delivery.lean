import Mathlib.Data.List.Induction
import Yurin.Engine.Worker
import Yurin.Proofs.Except

/-!
# Results on their way

A result is queued while its run is in flight or its delivery is still to come, then it is under
way while its delivery holds the lock, and then it waits in the channel until it is received or a
newer one takes its place.

* `Move` says all that a step can do, and `step_move` that a step does nothing else.
* `Safe` is the invariant: a submission is at one of these places at most, what is under way is
  newer than everything sent before, and the channel is empty and open for it.
* `Safe.exists_history`, `Safe.of_history`: from a safe worker every sequence of steps is possible,
  and ends in a safe one.

Results:
* `channel_safe`: nothing is ever sent on a full or closed channel, results are received in the
  order of their submissions, each at most once, and after closing no result enters the channel.
* `received_superseded_iff`: a result was the newest one when it was sent. It is received although a
  newer submission has been accepted exactly if that happened while it waited in the channel.
-/

namespace Yurin

theorem Channel.send_eq_ok {α : Type} {c c' : Channel α} {a : α} (h : c.send a = .ok c') :
    c.slot = none ∧ c.closed = false ∧ c' = ⟨some a, false⟩ := by
  unfold Channel.send at h
  split at h
  · cases h
  · split at h
    · cases h
    · rename_i hclosed hslot
      have hclosed : c.closed = false := by simpa using hclosed
      exact ⟨by simpa using hslot, hclosed, by rw [← Except.ok.inj h, hclosed]⟩

namespace Worker

/-- The result that an answer hands over. -/
def Answer.result? : Answer → Option Result
  | .received r => some r
  | .accepted _ | .refused _ => none

/-- The results that were received, in order. -/
def receivedIn (answers : List Answer) : List Result := answers.filterMap Answer.result?

@[simp] theorem receivedIn_append (xs ys : List Answer) :
    receivedIn (xs ++ ys) = receivedIn xs ++ receivedIn ys := List.filterMap_append

/-- A history begins with its first step. -/
theorem history_cons_iff {w w' : Worker} {s : Step} {rest : List Step} {answers : List Answer} :
    w.history (s :: rest) = .ok (w', answers) ↔
      ∃ u a later, w.step s = .ok (u, a) ∧ u.history rest = .ok (w', later) ∧
        answers = a.toList ++ later := by
  rw [history, Except.bind_eq_ok_iff]
  simp only [Except.bind_eq_ok_iff, Prod.exists, pure, Except.pure, Except.ok.injEq,
    Prod.mk.injEq]
  constructor
  · rintro ⟨u, a, hstep, _, later, hrest, rfl, rfl⟩
    exact ⟨u, a, later, hstep, hrest, rfl⟩
  · rintro ⟨u, a, later, hstep, hrest, rfl⟩
    exact ⟨u, a, hstep, w', later, hrest, rfl, rfl⟩

/-- A history of two parts passes through the worker after the first. -/
theorem history_append_iff {w w' : Worker} {before after : List Step} {answers : List Answer} :
    w.history (before ++ after) = .ok (w', answers) ↔
      ∃ u earlier later, w.history before = .ok (u, earlier) ∧
        u.history after = .ok (w', later) ∧ answers = earlier ++ later := by
  induction before generalizing w answers with
  | nil =>
    constructor
    · exact fun h => ⟨w, [], answers, rfl, h, rfl⟩
    · rintro ⟨u, _, later, hnil, h, rfl⟩
      obtain ⟨rfl, rfl⟩ := Prod.mk.inj (Except.ok.inj hnil)
      exact h
  | cons s rest ih =>
    simp only [List.cons_append, history_cons_iff, ih]
    constructor
    · rintro ⟨v, a, _, hstep, ⟨u, earlier, later, hrest, hafter, rfl⟩, rfl⟩
      exact ⟨u, a.toList ++ earlier, later, ⟨v, a, earlier, hstep, hrest, rfl⟩, hafter,
        (List.append_assoc ..).symm⟩
    · rintro ⟨u, _, later, ⟨v, a, earlier, hstep, hrest, rfl⟩, hafter, rfl⟩
      exact ⟨v, a, earlier ++ later, hstep, ⟨u, earlier, later, hrest, hafter, rfl⟩,
        List.append_assoc ..⟩

/-! ## What a step can do -/

/-- **A step by its effect**: what the user sees of it, and the worker after it. -/
inductive Move (w : Worker) : Step → Option Answer → Worker → Prop
  /-- The guard of the step fails. -/
  | idle (s : Step) : Move w s none w
  | refused (source : Bytes) (held calledOff : Bool) (hclosed : w.closed = true) :
      Move w (.submit source held calledOff) (some (.refused .closed)) w
  | submitted (source : Bytes) (held calledOff : Bool) (hopen : w.closed = false)
      (hfree : w.sending = none) :
      Move w (.submit source held calledOff) (some (.accepted (w.generation + 1)))
        { w with
          generation := w.generation + 1
          runs := w.runs.map Run.callOff ++ [⟨w.generation + 1, source, held, calledOff⟩] }
  | finished (r : Run) (checkpoints : Nat) (hr : r ∈ w.runs) :
      Move w (.finish r.generation checkpoints) none
        { w with
          runs := w.runs.filter (·.generation != r.generation)
          ended := w.ended ++ [r.result checkpoints] }
  | dropped (r : Result) (hr : r ∈ w.ended) (hold : r.generation ≠ w.generation) :
      Move w (.deliver r.generation) none
        { w with ended := w.ended.filter (·.generation != r.generation) }
  | delivering (r : Result) (hr : r ∈ w.ended) (hnewest : r.generation = w.generation) :
      Move w (.deliver r.generation) none
        { w with
          ended := w.ended.filter (·.generation != r.generation)
          sending := some r
          channel := w.channel.drain }
  | sent (r : Result) (hr : w.sending = some r) (hempty : w.channel.slot = none)
      (hopen : w.channel.closed = false) :
      Move w .send none { w with sending := none, channel := ⟨some r, false⟩ }
  | received (r : Result) (hr : w.channel.slot = some r) :
      Move w .receive (some (.received r)) { w with channel := w.channel.drain }
  | shut (hopen : w.closed = false) (hfree : w.sending = none) : Move w .shut none w.shut
  | retired (hclosed : w.closed = true) : Move w .retire none { w with channel := w.channel.close }

theorem unlocked_iff {w : Worker} : w.unlocked = true ↔ w.sending = none := by
  rw [unlocked, Option.isNone_iff_eq_none]

theorem finish_move (w : Worker) (generation checkpoints : Nat) :
    Move w (.finish generation checkpoints) none (w.finish generation checkpoints) := by
  unfold finish
  split
  · exact .idle _
  · rename_i r hfound
    have hgen : r.generation = generation := by simpa using List.find?_some hfound
    subst hgen
    split
    · exact .finished r checkpoints (List.mem_of_find?_eq_some hfound)
    · exact .idle _

theorem deliver_move (w : Worker) (generation : Nat) :
    Move w (.deliver generation) none (w.deliver generation) := by
  unfold deliver
  split
  · exact .idle _
  · rename_i r hfound
    have hgen : r.generation = generation := by simpa using List.find?_some hfound
    have hmem := List.mem_of_find?_eq_some hfound
    subst hgen
    dsimp only
    split
    · exact .delivering r hmem ‹_›
    · exact .dropped r hmem ‹_›

theorem submit_move {w w' : Worker} {a : Option Answer} {source : Bytes} {held calledOff : Bool}
    (h : w.step (.submit source held calledOff) = .ok (w', a)) :
    Move w (.submit source held calledOff) a w' := by
  rw [step, Except.ok.injEq] at h
  split at h
  · rename_i hfree
    cases hc : w.closed with
    | true =>
      rw [submit, if_pos hc] at h
      obtain ⟨rfl, rfl⟩ := Prod.mk.inj h
      exact .refused source held calledOff hc
    | false =>
      rw [submit, if_neg (by simp [hc])] at h
      obtain ⟨rfl, rfl⟩ := Prod.mk.inj h
      exact .submitted source held calledOff hc (unlocked_iff.mp hfree)
  · obtain ⟨rfl, rfl⟩ := Prod.mk.inj h
    exact .idle _

theorem send_move {w w' : Worker} {a : Option Answer} (h : w.step .send = .ok (w', a)) :
    Move w .send a w' := by
  cases hs : w.sending with
  | none =>
    rw [step, send, hs] at h
    obtain ⟨rfl, rfl⟩ := Prod.mk.inj (Except.ok.inj h)
    exact .idle _
  | some r =>
    rw [step, send, hs] at h
    dsimp only at h
    cases hc : w.channel.send r with
    | error e =>
      rw [hc] at h
      cases h
    | ok c =>
      rw [hc] at h
      obtain ⟨hempty, hopen, rfl⟩ := Channel.send_eq_ok hc
      obtain ⟨rfl, rfl⟩ := Prod.mk.inj (Except.ok.inj h)
      exact .sent r hs hempty hopen

theorem receive_move {w w' : Worker} {a : Option Answer} (h : w.step .receive = .ok (w', a)) :
    Move w .receive a w' := by
  rw [step, receive, Channel.receive] at h
  obtain ⟨rfl, rfl⟩ := Prod.mk.inj (Except.ok.inj h)
  cases hs : w.channel.slot with
  | none =>
    have hw : { w with channel := w.channel.drain } = w := by
      rw [Channel.drain, ← hs]
    rw [hw]
    exact .idle _
  | some r => exact .received r hs

/-- **A step makes a move.** -/
theorem step_move {w w' : Worker} {s : Step} {a : Option Answer} (h : w.step s = .ok (w', a)) :
    Move w s a w' := by
  cases s with
  | submit => exact submit_move h
  | send => exact send_move h
  | receive => exact receive_move h
  | finish generation checkpoints =>
    obtain ⟨rfl, rfl⟩ := Prod.mk.inj (Except.ok.inj h)
    exact finish_move w generation checkpoints
  | deliver generation =>
    obtain ⟨rfl, rfl⟩ := Prod.mk.inj (Except.ok.inj h)
    split
    · exact deliver_move w generation
    · exact .idle _
  | shut =>
    obtain ⟨rfl, rfl⟩ := Prod.mk.inj (Except.ok.inj h)
    split
    · rename_i hfree
      cases hc : w.closed with
      | true =>
        rw [shut, if_pos hc]
        exact .idle _
      | false => exact .shut hc (unlocked_iff.mp hfree)
    · exact .idle _
  | retire =>
    obtain ⟨rfl, rfl⟩ := Prod.mk.inj (Except.ok.inj h)
    unfold retire
    split
    · rename_i hguard
      exact .retired (Bool.and_eq_true_iff.mp hguard).1
    · exact .idle _

/-! ## The invariant -/

/-- A number that a submission has got; closing takes a number as well. -/
def Issued (w : Worker) (g : Nat) : Prop :=
  0 < g ∧ g ≤ w.generation ∧ (w.closed = true → g < w.generation)

/-- A submission has a run in flight, or a result that is still to be delivered. -/
def Queued (w : Worker) (g : Nat) : Prop :=
  (∃ r ∈ w.runs, r.generation = g) ∨ ∃ r ∈ w.ended, r.generation = g

/-- **What holds between any two steps.** `sent` is the number of the submission whose result was
sent last, zero if there is none, and `seen` are the numbers of those whose results were
received. -/
structure Safe (w : Worker) (sent : Nat) (seen : List Nat) : Prop where
  /-- A run that has ended is not in flight. -/
  apart : ∀ r ∈ w.runs, ∀ e ∈ w.ended, r.generation ≠ e.generation
  queued : ∀ g, w.Queued g → w.Issued g ∧ g ≠ sent ∧ ∀ r ∈ w.sending, g ≠ r.generation
  /-- What is under way is the newest result, and the channel has been emptied for it. -/
  sending : ∀ r ∈ w.sending, w.Issued r.generation ∧ r.generation = w.generation ∧
    sent < r.generation ∧ w.channel.slot = none
  /-- What waits was sent last, and is newer than everything received. -/
  waiting : ∀ r ∈ w.channel.slot, r.generation = sent ∧ 0 < sent ∧ ∀ g ∈ seen, g < sent
  sent_issued : sent = 0 ∨ w.Issued sent
  seen_le : ∀ g ∈ seen, 0 < g ∧ g ≤ sent
  increasing : seen.Pairwise (· < ·)
  /-- Only a closed worker closes its channel. -/
  channel_closed : w.channel.closed = true → w.closed = true

theorem start_safe : Safe start 0 [] where
  apart _ hr := nomatch hr
  queued := by rintro g (⟨r, hr, -⟩ | ⟨r, hr, -⟩) <;> cases hr
  sending _ hr := nomatch hr
  waiting _ hr := nomatch hr
  sent_issued := .inl rfl
  seen_le _ hr := nomatch hr
  increasing := .nil
  channel_closed := nofun

namespace Safe

variable {w : Worker} {sent : Nat} {seen : List Nat}

/-- A closed worker has nothing under way, so its lock is free. -/
theorem free_of_closed (h : Safe w sent seen) (hc : w.closed = true) : w.sending = none := by
  cases hs : w.sending with
  | none => rfl
  | some r =>
    obtain ⟨⟨-, -, hlt⟩, hnewest, -⟩ := h.sending r hs
    have := hlt hc
    omega

/-- The channel is empty and open for a result under way. -/
theorem channel_eq (h : Safe w sent seen) {r : Result} (hr : w.sending = some r) :
    w.channel = .empty := by
  have hempty := (h.sending r hr).2.2.2
  have hopen : w.channel.closed = false := by
    rw [Bool.eq_false_iff]
    intro hclosed
    rw [h.free_of_closed (h.channel_closed hclosed)] at hr
    cases hr
  rw [Channel.empty, ← hempty, ← hopen]

theorem submitted (h : Safe w sent seen) (hopen : w.closed = false) (hfree : w.sending = none)
    (source : Bytes) (held calledOff : Bool) :
    Safe { w with
        generation := w.generation + 1
        runs := w.runs.map Run.callOff ++ [⟨w.generation + 1, source, held, calledOff⟩] }
      sent seen := by
  have hlater {g : Nat} (hg : w.Issued g) : g ≤ w.generation + 1 ∧
      (w.closed = true → g < w.generation + 1) :=
    ⟨Nat.le_succ_of_le hg.2.1, fun _ => Nat.lt_succ_of_le hg.2.1⟩
  -- a run in flight is an old one that has been called off, or the new one
  have hrun {r : Run} (hr : r ∈ w.runs.map Run.callOff ++
      [⟨w.generation + 1, source, held, calledOff⟩]) :
      (∃ q ∈ w.runs, q.generation = r.generation) ∨ r.generation = w.generation + 1 := by
    rcases List.mem_append.mp hr with hr | hr
    · obtain ⟨q, hq, rfl⟩ := List.mem_map.mp hr
      exact .inl ⟨q, hq, rfl⟩
    · rw [List.mem_singleton.mp hr]
      exact .inr rfl
  refine { h with apart := ?_, queued := ?_, sending := ?_, sent_issued := ?_ }
  · intro r hr e he
    have hle := (h.queued e.generation (.inr ⟨e, he, rfl⟩)).1.2.1
    rcases hrun hr with ⟨q, hq, hgen⟩ | hgen
    · exact hgen ▸ h.apart q hq e he
    · omega
  · intro g hg
    have hold (hq : w.Queued g) := h.queued g hq
    have hnew : sent ≠ w.generation + 1 := by
      rcases h.sent_issued with hzero | hissued
      · omega
      · have := hissued.2.1
        omega
    rcases hg with ⟨r, hr, rfl⟩ | hended
    · rcases hrun hr with hq | hgen
      · obtain ⟨hissued, hrest⟩ := hold (.inl hq)
        exact ⟨⟨hissued.1, hlater hissued⟩, hrest⟩
      · rw [hgen]
        exact ⟨⟨Nat.succ_pos _, Nat.le_refl _, by simp [hopen]⟩, hnew.symm, by simp [hfree]⟩
    · obtain ⟨hissued, hrest⟩ := hold (.inr hended)
      exact ⟨⟨hissued.1, hlater hissued⟩, hrest⟩
  · simp [hfree]
  · exact h.sent_issued.imp_right fun hissued => ⟨hissued.1, hlater hissued⟩

theorem finished (h : Safe w sent seen) {r : Run} (hr : r ∈ w.runs) (checkpoints : Nat) :
    Safe { w with
        runs := w.runs.filter (·.generation != r.generation)
        ended := w.ended ++ [r.result checkpoints] } sent seen := by
  refine { h with apart := ?_, queued := ?_ }
  · intro q hq e he
    obtain ⟨hq, hne⟩ := List.mem_filter.mp hq
    rcases List.mem_append.mp he with he | he
    · exact h.apart q hq e he
    · rw [List.mem_singleton.mp he]
      have hne : q.generation ≠ r.generation := by simpa using hne
      exact hne
  · rintro g (⟨q, hq, rfl⟩ | ⟨e, he, rfl⟩)
    · exact h.queued _ (.inl ⟨q, (List.mem_filter.mp hq).1, rfl⟩)
    · rcases List.mem_append.mp he with he | he
      · exact h.queued _ (.inr ⟨e, he, rfl⟩)
      · rw [List.mem_singleton.mp he]
        exact h.queued _ (.inl ⟨r, hr, rfl⟩)

/-- A result that is taken from those to be delivered is no longer queued. -/
theorem queued_of_taken (h : Safe w sent seen) {r : Result} (hr : r ∈ w.ended) {g : Nat}
    (hg : (∃ q ∈ w.runs, q.generation = g) ∨
      ∃ e ∈ w.ended.filter (·.generation != r.generation), e.generation = g) :
    w.Queued g ∧ g ≠ r.generation := by
  rcases hg with ⟨q, hq, rfl⟩ | ⟨e, he, rfl⟩
  · exact ⟨.inl ⟨q, hq, rfl⟩, h.apart q hq r hr⟩
  · obtain ⟨he, hne⟩ := List.mem_filter.mp he
    exact ⟨.inr ⟨e, he, rfl⟩, by simpa using hne⟩

theorem dropped (h : Safe w sent seen) {r : Result} (hr : r ∈ w.ended) :
    Safe { w with ended := w.ended.filter (·.generation != r.generation) } sent seen := by
  refine { h with apart := ?_, queued := ?_ }
  · exact fun q hq e he => h.apart q hq e (List.mem_filter.mp he).1
  · exact fun g hg => h.queued g (h.queued_of_taken hr hg).1

theorem delivering (h : Safe w sent seen) {r : Result} (hr : r ∈ w.ended)
    (hnewest : r.generation = w.generation) :
    Safe { w with
        ended := w.ended.filter (·.generation != r.generation)
        sending := some r
        channel := w.channel.drain } sent seen := by
  obtain ⟨hissued, hne, -⟩ := h.queued r.generation (.inr ⟨r, hr, rfl⟩)
  refine { h with apart := ?_, queued := ?_, sending := ?_, waiting := fun _ hr => nomatch hr }
  · exact fun q hq e he => h.apart q hq e (List.mem_filter.mp he).1
  · intro g hg
    obtain ⟨hq, hother⟩ := h.queued_of_taken hr hg
    obtain ⟨hissued, hsent, -⟩ := h.queued g hq
    refine ⟨hissued, hsent, ?_⟩
    rintro _ ⟨⟩
    exact hother
  · rintro _ ⟨⟩
    have hle : sent ≤ w.generation := by
      rcases h.sent_issued with hzero | hissued
      · omega
      · exact hissued.2.1
    exact ⟨hissued, hnewest, by omega, rfl⟩

theorem sent_next (h : Safe w sent seen) {r : Result} (hr : w.sending = some r) :
    Safe { w with sending := none, channel := ⟨some r, false⟩ } r.generation seen := by
  obtain ⟨hissued, -, hlt, -⟩ := h.sending r hr
  refine { h with
    queued := ?_, waiting := ?_, sent_issued := .inr hissued, seen_le := ?_
    sending := fun _ hr => nomatch hr
    channel_closed := nofun }
  · intro g hg
    obtain ⟨hg, -, hother⟩ := h.queued g hg
    exact ⟨hg, hother r hr, fun _ hr => nomatch hr⟩
  · rintro _ ⟨⟩
    exact ⟨rfl, hissued.1, fun g hg => Nat.lt_of_le_of_lt (h.seen_le g hg).2 hlt⟩
  · intro g hg
    obtain ⟨hpos, hle⟩ := h.seen_le g hg
    exact ⟨hpos, by omega⟩

theorem received_next (h : Safe w sent seen) {r : Result} (hr : w.channel.slot = some r) :
    Safe { w with channel := w.channel.drain } sent (seen ++ [r.generation]) := by
  obtain ⟨hgen, hpos, hlt⟩ := h.waiting r hr
  refine { h with
    sending := ?_, seen_le := ?_, increasing := ?_
    waiting := fun _ hr => nomatch hr }
  · intro q hq
    rw [(h.sending q hq).2.2.2] at hr
    cases hr
  · intro g hg
    rcases List.mem_append.mp hg with hg | hg
    · exact h.seen_le g hg
    · rw [List.mem_singleton.mp hg]
      exact ⟨hgen ▸ hpos, Nat.le_of_eq hgen⟩
  · rw [List.pairwise_append]
    refine ⟨h.increasing, List.pairwise_singleton _ _, fun g hg q hq => ?_⟩
    rw [List.mem_singleton.mp hq, hgen]
    exact hlt g hg

theorem shut (h : Safe w sent seen) (hopen : w.closed = false) (hfree : w.sending = none) :
    Safe w.shut sent seen := by
  have hlater {g : Nat} (hg : w.Issued g) : w.shut.Issued g := by
    rw [Worker.shut, if_neg (by simp [hopen])]
    exact ⟨hg.1, Nat.le_succ_of_le hg.2.1, fun _ => Nat.lt_succ_of_le hg.2.1⟩
  rw [Worker.shut, if_neg (by simp [hopen])] at hlater ⊢
  refine { h with
    apart := ?_, queued := ?_, sending := by simp [hfree], sent_issued := ?_
    channel_closed := fun _ => rfl }
  · intro r hr e he
    obtain ⟨r, hr', rfl⟩ := List.mem_map.mp hr
    exact h.apart r hr' e he
  · rintro g (⟨r, hr, rfl⟩ | hended)
    · obtain ⟨r, hr', rfl⟩ := List.mem_map.mp hr
      obtain ⟨hissued, hrest⟩ := h.queued r.generation (.inl ⟨r, hr', rfl⟩)
      exact ⟨hlater hissued, hrest⟩
    · obtain ⟨hissued, hrest⟩ := h.queued g (.inr hended)
      exact ⟨hlater hissued, hrest⟩
  · exact h.sent_issued.imp_right hlater

/-- **A move of a safe worker** leaves it safe. -/
theorem of_move {w' : Worker} {s : Step} {a : Option Answer} (h : Safe w sent seen)
    (hmove : Move w s a w') :
    ∃ sent', Safe w' sent' (seen ++ (receivedIn a.toList).map Result.generation) := by
  -- all moves but one hand over no result
  have hsame {v : Worker} {sent' : Nat} (hv : Safe v sent' seen) : Safe v sent' (seen ++ []) := by
    rwa [List.append_nil]
  cases hmove with
  | idle => exact ⟨sent, hsame h⟩
  | refused => exact ⟨sent, hsame h⟩
  | submitted source held calledOff hopen hfree =>
    exact ⟨sent, hsame (h.submitted hopen hfree source held calledOff)⟩
  | finished r checkpoints hr => exact ⟨sent, hsame (h.finished hr checkpoints)⟩
  | dropped r hr _ => exact ⟨sent, hsame (h.dropped hr)⟩
  | delivering r hr hnewest => exact ⟨sent, hsame (h.delivering hr hnewest)⟩
  | sent r hr _ _ => exact ⟨r.generation, hsame (h.sent_next hr)⟩
  | received r hr => exact ⟨sent, h.received_next hr⟩
  | shut hopen hfree => exact ⟨sent, hsame (h.shut hopen hfree)⟩
  | retired hclosed =>
    refine ⟨sent, hsame { h with sending := ?_, channel_closed := fun _ => hclosed }⟩
    simp [h.free_of_closed hclosed]

/-- A safe worker can take any step. -/
theorem exists_step (h : Safe w sent seen) (s : Step) : ∃ w' a, w.step s = .ok (w', a) := by
  cases s with
  | send =>
    cases hs : w.sending with
    | none => exact ⟨w, none, by rw [Worker.step, send, hs]; rfl⟩
    | some r => exact ⟨_, none, by rw [Worker.step, send, hs, h.channel_eq hs]; rfl⟩
  | _ => exact ⟨_, _, rfl⟩

/-- **A history of a safe worker** ends in a safe one. -/
theorem of_history {w' : Worker} {steps : List Step} {answers : List Answer}
    (h : Safe w sent seen) (hrun : w.history steps = .ok (w', answers)) :
    ∃ sent', Safe w' sent' (seen ++ (receivedIn answers).map Result.generation) := by
  induction steps generalizing w sent seen answers with
  | nil =>
    obtain ⟨rfl, rfl⟩ := Prod.mk.inj (Except.ok.inj hrun)
    exact ⟨sent, by simpa [receivedIn] using h⟩
  | cons s rest ih =>
    obtain ⟨u, a, later, hstep, hrest, rfl⟩ := history_cons_iff.mp hrun
    obtain ⟨sent₁, h₁⟩ := h.of_move (step_move hstep)
    obtain ⟨sent₂, h₂⟩ := ih h₁ hrest
    exact ⟨sent₂, by simpa using h₂⟩

/-- **A safe worker can take any sequence of steps.** -/
theorem exists_history (h : Safe w sent seen) (steps : List Step) :
    ∃ w' answers, w.history steps = .ok (w', answers) := by
  induction steps generalizing w sent seen with
  | nil => exact ⟨w, [], rfl⟩
  | cons s rest ih =>
    obtain ⟨u, a, hstep⟩ := h.exists_step s
    obtain ⟨sent₁, h₁⟩ := h.of_move (step_move hstep)
    obtain ⟨w', later, hrest⟩ := ih h₁
    exact ⟨w', _, history_cons_iff.mpr ⟨u, a, later, hstep, hrest, rfl⟩⟩

end Safe

/-! ## Numbers of submissions -/

/-- A step gives new numbers only, and only to what it accepts. -/
theorem Move.numbers {w w' : Worker} {s : Step} {a : Option Answer} (h : Move w s a w') (g : Nat) :
    w.generation ≤ w'.generation ∧ (.accepted g ∈ a.toList → w.generation < g) ∧
      (w'.Issued g ↔ w.Issued g ∨ .accepted g ∈ a.toList) := by
  cases h with
  | submitted source held calledOff hopen _ =>
    have hmem : Answer.accepted g ∈ (some (Answer.accepted (w.generation + 1))).toList ↔
        g = w.generation + 1 := by simp
    have hguard {p : Prop} : (w.closed = true → p) ↔ True := by simp [hopen]
    simp only [Issued, hmem, hguard, and_true]
    omega
  | shut hopen _ =>
    have hguard {p : Prop} : (w.closed = true → p) ↔ True := by simp [hopen]
    rw [Worker.shut, if_neg (by simp [hopen])]
    simp only [Issued, Option.toList_none, List.not_mem_nil, hguard, forall_const, and_true,
      or_false]
    exact ⟨Nat.le_succ _, nofun, by omega⟩
  | refused => simp
  | received => simp [Issued]
  | _ => simp [Issued]

theorem history_numbers {w w' : Worker} {steps : List Step} {answers : List Answer}
    (h : w.history steps = .ok (w', answers)) (g : Nat) :
    (.accepted g ∈ answers → w.generation < g) ∧
      (w'.Issued g ↔ w.Issued g ∨ .accepted g ∈ answers) := by
  induction steps generalizing w answers with
  | nil =>
    obtain ⟨rfl, rfl⟩ := Prod.mk.inj (Except.ok.inj h)
    simp
  | cons s rest ih =>
    obtain ⟨u, a, later, hstep, hrest, rfl⟩ := history_cons_iff.mp h
    obtain ⟨hle, hnew, hissued⟩ := (step_move hstep).numbers g
    obtain ⟨hnew', hissued'⟩ := ih hrest
    refine ⟨fun hg => ?_, ?_⟩
    · rcases List.mem_append.mp hg with hg | hg
      · exact hnew hg
      · exact Nat.lt_of_le_of_lt hle (hnew' hg)
    · rw [hissued', hissued, List.mem_append, or_assoc]

/-- The numbers issued are those of the accepted submissions. -/
theorem issued_iff {w : Worker} {steps : List Step} {answers : List Answer}
    (h : start.history steps = .ok (w, answers)) (g : Nat) :
    w.Issued g ↔ .accepted g ∈ answers := by
  rw [(history_numbers h g).2, or_iff_right]
  rintro ⟨hpos, hle, -⟩
  exact Nat.not_lt.mpr hle hpos

/-! ## After closing -/

/-- In a closed worker what waits stays until it is received, and nothing else comes to wait. -/
theorem Safe.closed_move {w w' : Worker} {sent : Nat} {seen : List Nat} {s : Step}
    {a : Option Answer} (h : Safe w sent seen) (hc : w.closed = true) (hmove : Move w s a w') :
    w'.closed = true ∧ receivedIn a.toList ++ w'.channel.slot.toList = w.channel.slot.toList := by
  have hfree := h.free_of_closed hc
  cases hmove with
  | submitted source held calledOff hopen _ => simp [hc] at hopen
  | shut hopen _ => simp [hc] at hopen
  | sent r hr _ _ => simp [hfree] at hr
  | delivering r hr hnewest =>
    obtain ⟨⟨-, -, hlt⟩, -⟩ := h.queued r.generation (.inr ⟨r, hr, rfl⟩)
    have := hlt hc
    omega
  | received r hr => exact ⟨hc, by rw [hr]; rfl⟩
  | _ => exact ⟨hc, rfl⟩

theorem Safe.closed_history {w w' : Worker} {sent : Nat} {seen : List Nat} {steps : List Step}
    {answers : List Answer} (h : Safe w sent seen) (hc : w.closed = true)
    (hrun : w.history steps = .ok (w', answers)) :
    w'.closed = true ∧ receivedIn answers ++ w'.channel.slot.toList = w.channel.slot.toList := by
  induction steps generalizing w sent seen answers with
  | nil =>
    obtain ⟨rfl, rfl⟩ := Prod.mk.inj (Except.ok.inj hrun)
    exact ⟨hc, rfl⟩
  | cons s rest ih =>
    obtain ⟨u, a, later, hstep, hrest, rfl⟩ := history_cons_iff.mp hrun
    obtain ⟨sent', hsafe⟩ := h.of_move (step_move hstep)
    obtain ⟨hc', hslot⟩ := h.closed_move hc (step_move hstep)
    obtain ⟨hc'', hslot'⟩ := ih hsafe hc' hrest
    refine ⟨hc'', ?_⟩
    rw [receivedIn_append, List.append_assoc, hslot', hslot]

/-- Shutting closes the worker, whether it was closed before or not, and leaves the channel. -/
theorem Safe.shut_closed {w : Worker} {sent : Nat} {seen : List Nat} (h : Safe w sent seen)
    (hfree : w.sending = none) :
    w.shut.closed = true ∧ w.shut.channel = w.channel ∧ Safe w.shut sent seen := by
  cases hc : w.closed with
  | true =>
    rw [Worker.shut, if_pos hc]
    exact ⟨hc, rfl, h⟩
  | false =>
    refine ⟨?_, ?_, h.shut hc hfree⟩ <;> rw [Worker.shut, if_neg (by simp [hc])]

/-- **The channel is safe.** Every sequence of steps is possible: no result is ever sent on a
channel that is full or closed. The results received are those of accepted submissions, in the
order of the submissions, and each at most once. Once the worker has been shut, what waits in the
channel stays there until it is received and nothing else enters it, and submissions are refused and
change nothing. -/
theorem channel_safe (steps : List Step) :
    ∃ w answers, start.history steps = .ok (w, answers) ∧
      (w.sending.isSome = true → w.channel = .empty) ∧
      ((receivedIn answers).map Result.generation).Pairwise (· < ·) ∧
      (∀ r ∈ receivedIn answers, .accepted r.generation ∈ answers) ∧
      ∀ before after u earlier, steps = before ++ .shut :: after →
        start.history before = .ok (u, earlier) → u.unlocked = true →
          ∃ later, u.shut.history after = .ok (w, later) ∧ answers = earlier ++ later ∧
            receivedIn later ++ w.channel.slot.toList = u.channel.slot.toList ∧
            ∀ source held calledOff,
              w.step (.submit source held calledOff) = .ok (w, some (.refused .closed)) := by
  obtain ⟨w, answers, hrun⟩ := start_safe.exists_history steps
  obtain ⟨sent, hsafe⟩ := start_safe.of_history hrun
  rw [List.nil_append] at hsafe
  refine ⟨w, answers, hrun, ?_, hsafe.increasing, ?_, ?_⟩
  · intro hs
    obtain ⟨r, hr⟩ := Option.isSome_iff_exists.mp hs
    exact hsafe.channel_eq hr
  · intro r hr
    obtain ⟨hpos, hle⟩ := hsafe.seen_le _ (List.mem_map_of_mem hr)
    obtain hzero | ⟨-, hsent, hclosed⟩ := hsafe.sent_issued
    · omega
    · refine (issued_iff hrun _).mp ⟨hpos, by omega, fun hc => ?_⟩
      have := hclosed hc
      omega
  · rintro before after u earlier rfl hbefore hfree
    obtain ⟨_, _, later, hbefore', hrest, rfl⟩ := history_append_iff.mp hrun
    rw [hbefore] at hbefore'
    obtain ⟨rfl, rfl⟩ := Prod.mk.inj (Except.ok.inj hbefore')
    obtain ⟨_, _, later, hstep, hafter, rfl⟩ := history_cons_iff.mp hrest
    rw [step, if_pos hfree] at hstep
    obtain ⟨rfl, rfl⟩ := Prod.mk.inj (Except.ok.inj hstep)
    -- the worker is safe before it is shut, and so it is after
    obtain ⟨sent', hsafe'⟩ := start_safe.of_history hbefore
    obtain ⟨hc, hsame, hshut⟩ := hsafe'.shut_closed (unlocked_iff.mp hfree)
    obtain ⟨hclosed, hslot⟩ := hshut.closed_history hc hafter
    refine ⟨later, hafter, rfl, ?_, fun source held calledOff => ?_⟩
    · rw [hslot, hsame]
    · rw [step, if_pos (unlocked_iff.mpr (hsafe.free_of_closed hclosed)), submit, if_pos hclosed]

/-- A result waits when the worker is shut. It is received afterwards, and nothing after it. -/
theorem received_after_shut :
    let r := Run.result ⟨1, [], false, false⟩ 0
    let before : List Step := [.submit [] false false, .finish 1 0, .deliver 1, .send]
    let after : List Step := [.retire, .receive, .receive]
    ∃ u w, start.history before = .ok (u, [.accepted 1]) ∧ u.unlocked = true ∧
      u.shut.history after = .ok (w, [.received r]) ∧
      receivedIn [.received r] ++ w.channel.slot.toList = u.channel.slot.toList ∧
      ∀ source held calledOff,
        w.step (.submit source held calledOff) = .ok (w, some (.refused .closed)) := by
  intro r before after
  obtain ⟨w, answers, -, -, -, -, hshut⟩ := channel_safe (before ++ .shut :: after)
  obtain ⟨later, hlater, -, hslot, hsubmit⟩ := hshut before after _ _ rfl rfl rfl
  obtain ⟨rfl, rfl⟩ := Prod.mk.inj (Except.ok.inj hlater)
  exact ⟨_, _, rfl, rfl, rfl, hslot, hsubmit⟩

/-! ## Superseded results -/

/-- A result that waits after a step has waited before it, or it has just been sent. -/
theorem Move.waiting {w w' : Worker} {s : Step} {a : Option Answer} {r : Result}
    (h : Move w s a w') (hr : w'.channel.slot = some r) :
    w.channel.slot = some r ∨ s = .send ∧ w.sending = some r := by
  cases h with
  | sent q hq _ _ => exact .inr ⟨rfl, hq.trans hr⟩
  | delivering => cases hr
  | received => cases hr
  | shut hopen _ =>
    rw [Worker.shut, if_neg (by simp [hopen])] at hr
    exact .inl hr
  | _ => exact .inl hr

/-- A result that waits has been sent at some step of the history. -/
theorem sent_before {w : Worker} {steps : List Step} {answers : List Answer} {r : Result}
    (h : start.history steps = .ok (w, answers)) (hr : w.channel.slot = some r) :
    ∃ before after u v earlier later,
      steps = before ++ .send :: after ∧ answers = earlier ++ later ∧
      start.history before = .ok (u, earlier) ∧ u.sending = some r ∧
      u.step .send = .ok (v, none) ∧ v.history after = .ok (w, later) := by
  induction steps using List.reverseRecOn generalizing w answers with
  | nil =>
    obtain ⟨rfl, -⟩ := Prod.mk.inj (Except.ok.inj h)
    cases hr
  | append_singleton front s ih =>
    obtain ⟨q, answers, _, hfront, hlast, rfl⟩ := history_append_iff.mp h
    obtain ⟨_, a, _, hstep, hnil, rfl⟩ := history_cons_iff.mp hlast
    obtain ⟨rfl, rfl⟩ := Prod.mk.inj (Except.ok.inj hnil)
    rcases (step_move hstep).waiting hr with hr | ⟨rfl, hr⟩
    · obtain ⟨before, after, u, v, earlier, later, rfl, rfl, hbefore, hu, hsend, hafter⟩ :=
        ih hfront hr
      refine ⟨before, after ++ [s], u, v, earlier, later ++ (a.toList ++ []), by simp, by simp,
        hbefore, hu, hsend, ?_⟩
      exact history_append_iff.mpr ⟨q, later, _, hafter, hlast, rfl⟩
    · obtain rfl : a = none := by
        cases step_move hstep <;> rfl
      exact ⟨front, [], q, _, answers, [], rfl, by simp, hfront, hr, hstep, rfl⟩

/-- **A superseded result is one that was waiting.** A result that is received was the newest one
when it was sent. Of the submissions accepted before it is received, those that are newer are just
those that were accepted after it had been sent: a submission leaves the result that waits in the
channel where it is. -/
theorem received_superseded_iff {w w' : Worker} {steps : List Step} {answers : List Answer}
    {r : Result} (h : start.history steps = .ok (w, answers))
    (hr : w.step .receive = .ok (w', some (.received r))) :
    ∃ before after u v earlier later,
      steps = before ++ .send :: after ∧ answers = earlier ++ later ∧
      start.history before = .ok (u, earlier) ∧ u.sending = some r ∧
      r.generation = u.generation ∧
      u.step .send = .ok (v, none) ∧ v.history after = .ok (w, later) ∧
      ∀ g, .accepted g ∈ answers → (r.generation < g ↔ .accepted g ∈ later) := by
  have hwaits : w.channel.slot = some r := by
    cases step_move hr with
    | received _ hslot => exact hslot
  obtain ⟨before, after, u, v, earlier, later, rfl, rfl, hbefore, hu, hsend, hafter⟩ :=
    sent_before h hwaits
  obtain ⟨sent, hsafe⟩ := start_safe.of_history hbefore
  have hnewest := (hsafe.sending r hu).2.1
  have hle := ((step_move hsend).numbers 0).1
  refine ⟨before, after, u, v, earlier, later, rfl, rfl, hbefore, hu, hnewest, hsend, hafter, ?_⟩
  intro g hg
  constructor
  · intro hlt
    refine (List.mem_append.mp hg).resolve_left fun hearlier => ?_
    -- what was accepted before the sending is at most as new as the worker was then
    have hissued := ((issued_iff hbefore g).mpr hearlier).2.1
    omega
  · intro hlater
    have hnew := (history_numbers hafter g).1 hlater
    omega

/-- A result is sent, a newer submission is accepted, and then the result is received. -/
theorem received_superseded :
    let r := Run.result ⟨1, [], false, false⟩ 0
    let steps : List Step :=
      [.submit [] false false, .finish 1 0, .deliver 1, .send, .submit [] true false]
    ∃ w w', start.history steps = .ok (w, [.accepted 1, .accepted 2]) ∧
      w.step .receive = .ok (w', some (.received r)) ∧ r.generation < 2 ∧
      ∃ before after u v earlier later,
        steps = before ++ .send :: after ∧ [.accepted 1, .accepted 2] = earlier ++ later ∧
        start.history before = .ok (u, earlier) ∧ u.sending = some r ∧
        r.generation = u.generation ∧
        u.step .send = .ok (v, none) ∧ v.history after = .ok (w, later) ∧
        ∀ g, .accepted g ∈ [Answer.accepted 1, .accepted 2] →
          (r.generation < g ↔ .accepted g ∈ later) :=
  ⟨_, _, rfl, rfl, by decide, received_superseded_iff rfl rfl⟩

end Worker

end Yurin
