import Yurin.Proofs.SemanticTokens.Decoding

/-!
# Encoding tokens in any order

Tokens may come in any order and more than once. `encode` sorts them by line and start and keeps the
order of those that begin at one place; `StableOrder` says what that means, and only one list has
these properties (`stableOrder_iff`).

* `encode_invertible`: reading the numbers five by five gives the tokens in this order, each with
  the set of its modifiers. As the tokens are sorted, no difference of two positions is below zero:
  `encodeChecked?`, which fails where one is, never fails.
* `decode_encode_filter`: leaving out tokens before they are encoded is the same as leaving them out
  after they have been read back, although other differences are written.
-/

namespace Yurin

namespace SemanticToken

/-! ## The order of tokens -/

theorem le_iff (t u : SemanticToken) :
    le t u = true ↔ t.line < u.line ∨ t.line = u.line ∧ t.start ≤ u.start := by
  simp [le]

theorem le_trans (t u v : SemanticToken) (h : le t u = true) (h' : le u v = true) :
    le t v = true := by
  simp only [le_iff, UInt32.lt_iff_toNat_lt, UInt32.le_iff_toNat_le, ← UInt32.toNat_inj] at *
  omega

theorem le_total (t u : SemanticToken) : (le t u || le u t) = true := by
  simp only [Bool.or_eq_true, le_iff, UInt32.lt_iff_toNat_lt, UInt32.le_iff_toNat_le,
    ← UInt32.toNat_inj]
  omega

/-- Two tokens begin at one place. -/
def beginsWith (t u : SemanticToken) : Bool := u.line == t.line && u.start == t.start

theorem beginsWith_iff (t u : SemanticToken) :
    t.beginsWith u = true ↔ le t u = true ∧ le u t = true := by
  simp only [beginsWith, Bool.and_eq_true, beq_iff_eq, le_iff, UInt32.lt_iff_toNat_lt,
    UInt32.le_iff_toNat_le, ← UInt32.toNat_inj]
  omega

/-- **The tokens in order**: the same tokens, sorted by line and start, where those that begin at
one place stand as they stood before. -/
structure StableOrder (tokens sorted : List SemanticToken) : Prop where
  perm : sorted.Perm tokens
  pairwise : sorted.Pairwise fun t u => le t u = true
  ties : ∀ t : SemanticToken, sorted.filter t.beginsWith = tokens.filter t.beginsWith

theorem mergeSort_stableOrder (tokens : List SemanticToken) :
    StableOrder tokens (tokens.mergeSort le) where
  perm := List.mergeSort_perm _ _
  pairwise := List.pairwise_mergeSort le_trans le_total tokens
  ties t := filter_mergeSort t.beginsWith tokens le_trans le_total fun u v hu hv =>
    le_trans u t v ((beginsWith_iff t u).mp hu).2 ((beginsWith_iff t v).mp hv).1

/-- What sorted lists begin with, when they hold the same tokens. -/
theorem beginsWith_head {t u : SemanticToken} {ts us : List SemanticToken}
    (ht : (t :: ts).Pairwise fun a b => le a b = true)
    (hu : (u :: us).Pairwise fun a b => le a b = true) (hperm : (t :: ts).Perm (u :: us)) :
    t.beginsWith u = true := by
  have hleast {a b : SemanticToken} {as : List SemanticToken}
      (h : (a :: as).Pairwise fun a b => le a b = true) (hb : b ∈ a :: as) : le a b = true := by
    rcases List.mem_cons.mp hb with rfl | hb
    · simpa using le_total b b
    · exact (List.pairwise_cons.mp h).1 b hb
  rw [beginsWith_iff]
  exact ⟨hleast ht (hperm.mem_iff.mpr List.mem_cons_self),
    hleast hu (hperm.mem_iff.mp List.mem_cons_self)⟩

/-- **There is only one such order.** -/
theorem StableOrder.unique {tokens ts us : List SemanticToken} (ht : StableOrder tokens ts)
    (hu : StableOrder tokens us) : ts = us := by
  have hperm := ht.perm.trans hu.perm.symm
  have hties (t : SemanticToken) : ts.filter t.beginsWith = us.filter t.beginsWith :=
    (ht.ties t).trans (hu.ties t).symm
  have hts := ht.pairwise
  have hus := hu.pairwise
  clear ht hu
  induction ts generalizing us with
  | nil => exact hperm.nil_eq
  | cons t ts ih =>
    cases us with
    | nil => exact absurd hperm.length_eq (by simp)
    | cons u us =>
      -- both begin at one place, so they are the first ones at that place
      have hboth := beginsWith_head hts hus hperm
      have hself : t.beginsWith t = true := by simp [beginsWith]
      have hfirst := hties t
      rw [List.filter_cons_of_pos hself, List.filter_cons_of_pos hboth] at hfirst
      obtain rfl := (List.cons.inj hfirst).1
      rw [ih (List.Perm.cons_inv hperm) (fun v => ?_) hts.of_cons hus.of_cons]
      have hv := hties v
      rw [List.filter_cons, List.filter_cons] at hv
      split at hv
      · exact (List.cons.inj hv).2
      · exact hv

theorem stableOrder_iff {tokens sorted : List SemanticToken} :
    StableOrder tokens sorted ↔ sorted = tokens.mergeSort le :=
  ⟨fun h => h.unique (mergeSort_stableOrder tokens), fun h => h ▸ mergeSort_stableOrder tokens⟩

/-- What is left of tokens in order is in order. -/
theorem StableOrder.filter {tokens sorted : List SemanticToken} (h : StableOrder tokens sorted)
    (p : SemanticToken → Bool) : StableOrder (tokens.filter p) (sorted.filter p) where
  perm := h.perm.filter p
  pairwise := h.pairwise.filter p
  ties t := by
    rw [List.filter_comm, h.ties t, List.filter_comm]

/-! ## Differences -/

/-- The difference of two numbers, where it is not below zero. -/
def difference? (a b : UInt32) : Option UInt32 := if b ≤ a then some (a - b) else none

/-- How far a token is from the start of its line, or from the token before it on this line. -/
def across? (down start : UInt32) (t : SemanticToken) : Option UInt32 :=
  if down = 0 then difference? t.start start else some t.start

/-- The numbers of sorted tokens, after a token at `line` and `start`, with differences that have
to exist. -/
def deltasChecked? : (line start : UInt32) → List SemanticToken → Option (List UInt32)
  | _, _, [] => some []
  | line, start, t :: rest => do
    let down ← difference? t.line line
    let across ← across? down start t
    let more ← deltasChecked? t.line t.start rest
    return [down, across, t.length, t.type, modifierBits t.modifiers] ++ more

/-- The numbers of tokens, with differences that have to exist. -/
def encodeChecked? (tokens : List SemanticToken) : Option (List UInt32) :=
  deltasChecked? 0 0 (tokens.mergeSort le)

/-- Behind a place, the differences of sorted tokens exist. -/
theorem deltasChecked?_eq (line start : UInt32) {tokens : List SemanticToken}
    (hsorted : tokens.Pairwise fun t u => le t u = true)
    (hbehind : ∀ t ∈ tokens, line < t.line ∨ line = t.line ∧ start ≤ t.start) :
    deltasChecked? line start tokens = some (deltas line start tokens) := by
  induction tokens generalizing line start with
  | nil => rfl
  | cons t rest ih =>
    obtain ⟨hrest, hsorted⟩ := List.pairwise_cons.mp hsorted
    have hmore := ih t.line t.start hsorted fun u hu => (le_iff t u).mp (hrest u hu)
    have hdown : difference? t.line line = some (t.line - line) := by
      refine if_pos ?_
      rcases hbehind t List.mem_cons_self with hlt | ⟨rfl, -⟩
      · exact UInt32.le_of_lt hlt
      · exact UInt32.le_refl _
    have hacross : across? (t.line - line) start t =
        some (if t.line - line = 0 then t.start - start else t.start) := by
      unfold across?
      split
      · rename_i hsame
        have hline : t.line = line := by
          rw [← UInt32.sub_add_cancel t.line line, hsame, UInt32.zero_add]
        refine if_pos ?_
        rcases hbehind t List.mem_cons_self with hlt | ⟨-, hle⟩
        · exact absurd hline (UInt32.ne_of_lt hlt).symm
        · exact hle
      · rfl
    rw [deltasChecked?, hdown, Option.bind_eq_bind, Option.bind_some, hacross, hmore]
    rfl

/-- **No difference is below zero.** -/
theorem encodeChecked?_eq (tokens : List SemanticToken) :
    encodeChecked? tokens = some (encode tokens) := by
  refine deltasChecked?_eq 0 0 (mergeSort_stableOrder tokens).pairwise fun t _ => ?_
  simp only [UInt32.lt_iff_toNat_lt, UInt32.le_iff_toNat_le, ← UInt32.toNat_inj, UInt32.toNat_zero]
  omega

theorem deltas_length (line start : UInt32) (tokens : List SemanticToken) :
    (deltas line start tokens).length = 5 * tokens.length := by
  induction tokens generalizing line start with
  | nil => rfl
  | cons t rest ih =>
    rw [deltas, List.length_append, ih, List.length_cons]
    simp only [List.length_cons, List.length_nil]
    omega

/-! ## Modifiers -/

/-- Two modifiers below 32 have a bit in common only if they are the same. -/
theorem and_modifierBit (m n : UInt32) (hn : n < 32) :
    modifierBit m &&& modifierBit n ≠ 0 ↔ m = n := by
  have hbits : ∀ i j : Fin 32,
      (1 : UInt32) <<< UInt32.ofNat i &&& (1 : UInt32) <<< UInt32.ofNat j ≠ 0 ↔ i = j := by decide
  by_cases hm : m < 32
  · have h := hbits ⟨m.toNat, hm⟩ ⟨n.toNat, hn⟩
    simpa [modifierBit, hm, hn, UInt32.toNat_inj] using h
  · rw [modifierBit, if_neg hm, UInt32.zero_and]
    refine iff_of_false (by simp) fun h => hm (h ▸ hn)

theorem or_and_bits (a b c : UInt32) : (a ||| b) &&& c = (a &&& c) ||| (b &&& c) := by
  rw [← UInt32.toNat_inj]
  simp only [UInt32.toNat_and, UInt32.toNat_or, Nat.and_or_distrib_right]

/-- The bits of modifiers, on top of other bits. -/
theorem foldl_modifierBit (ms : List UInt32) (bits : UInt32) {n : UInt32} (hn : n < 32) :
    ms.foldl (fun bits m => bits ||| modifierBit m) bits &&& modifierBit n ≠ 0 ↔
      bits &&& modifierBit n ≠ 0 ∨ n ∈ ms := by
  induction ms generalizing bits with
  | nil => simp
  | cons m ms ih =>
    rw [List.foldl_cons, ih, or_and_bits, ne_eq, UInt32.or_eq_zero_iff, not_and_or, or_assoc]
    have hm := and_modifierBit m n hn
    rw [ne_eq] at hm
    rw [hm, List.mem_cons, @eq_comm _ n m]

/-- **The bits tell which modifiers there are**, up to 31. -/
theorem mem_modifiersOf (ms : List UInt32) (m : UInt32) :
    m ∈ modifiersOf (modifierBits ms) ↔ m ∈ ms ∧ m < 32 := by
  simp only [modifiersOf, List.mem_filter, List.mem_map, List.mem_range, decide_eq_true_eq]
  constructor
  · rintro ⟨⟨i, hi, rfl⟩, hbit⟩
    have hlt : i.toUInt32 < 32 := by
      rw [UInt32.lt_iff_toNat_lt, Nat.toUInt32_eq,
        UInt32.toNat_ofNat_of_lt' (Nat.lt_trans hi (by decide))]
      exact hi
    exact ⟨by simpa using (foldl_modifierBit ms 0 hlt).mp hbit, hlt⟩
  · rintro ⟨hm, hlt⟩
    refine ⟨⟨m.toNat, hlt, by simp⟩, (foldl_modifierBit ms 0 hlt).mpr (.inr hm)⟩

/-- The modifiers that bits tell stand in increasing order. -/
theorem modifiersOf_pairwise (bits : UInt32) : (modifiersOf bits).Pairwise fun m n => m < n := by
  refine List.Pairwise.filter _ ?_
  decide

/-! ## Reading back -/

/-- What is read back of a token: where it is, how long, of which type, and the set of its modifiers
as an increasing list. A modifier above 31 has no bit. -/
structure ReadBackOf (found t : SemanticToken) : Prop where
  line : found.line = t.line
  start : found.start = t.start
  length : found.length = t.length
  type : found.type = t.type
  increasing : found.modifiers.Pairwise fun m n => m < n
  mem_modifiers : ∀ m, m ∈ found.modifiers ↔ m ∈ t.modifiers ∧ m < 32

theorem readBack_of (t : SemanticToken) : t.readBack.ReadBackOf t :=
  ⟨rfl, rfl, rfl, rfl, modifiersOf_pairwise _, mem_modifiersOf _⟩

/-- **Encoding can be undone.** Tokens in any order are written with five numbers each. Reading them
gives the tokens sorted by line and start, where those that begin at one place stand as before, each
with its length, its type and the set of its modifiers. No difference is below zero. -/
theorem encode_invertible (tokens : List SemanticToken) :
    ∃ sorted, (∀ order, StableOrder tokens order ↔ order = sorted) ∧
      (encode tokens).length = 5 * tokens.length ∧
      List.Forall₂ ReadBackOf (decode (encode tokens)) sorted ∧
      encodeChecked? tokens = some (encode tokens) := by
  refine ⟨tokens.mergeSort le, fun order => stableOrder_iff, ?_, ?_, encodeChecked?_eq tokens⟩
  · rw [encode, deltas_length, List.length_mergeSort]
  · rw [decode_encode_eq, List.forall₂_map_left_iff, List.forall₂_same]
    exact fun t _ => readBack_of t

/-- Two tokens at one place keep their order, and a modifier that is named twice is read once. -/
example :
    let first : SemanticToken := ⟨1, 2, 3, 4, [5, 0, 5]⟩
    let second : SemanticToken := ⟨1, 2, 1, 7, []⟩
    decode (deltas 0 0 [first, second]) = [{ first with modifiers := [0, 5] }, second] := by
  decide

/-! ## Leaving out tokens -/

/-- **Leaving out tokens** before they are encoded is leaving them out after they have been read
back, if the modifiers do not matter for it. -/
theorem decode_encode_filter (p : SemanticToken → Bool) (hp : ∀ t, p t.readBack = p t)
    (tokens : List SemanticToken) :
    decode (encode (tokens.filter p)) = (decode (encode tokens)).filter p := by
  have hsame : p ∘ readBack = p := funext hp
  have hsorted := stableOrder_iff.mp ((mergeSort_stableOrder tokens).filter p)
  rw [decode_encode_eq, decode_encode_eq, List.filter_map, hsame, hsorted]

end SemanticToken

end Yurin
