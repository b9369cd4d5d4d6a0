import Mathlib.Data.List.Forall2
import Yurin.Proofs.SemanticTokens.Segments

/-!
# Decoding semantic tokens

An editor reads the numbers five by five and adds up the positions: `decode`. Addition undoes
subtraction also where numbers wrap around, so it gets the sorted tokens back (`decode_encode`).
Tokens of segments that fit are sorted already, and show their segments: `forall₂_shows_iff`.
-/

namespace Yurin

namespace SemanticToken

/-- The modifiers whose bits are set. -/
def modifiersOf (bits : UInt32) : List UInt32 :=
  ((List.range 32).map Nat.toUInt32).filter fun m => bits &&& modifierBit m ≠ 0

/-- The tokens that numbers stand for, after a token at `line` and `start`. -/
def decodeAfter : (line start : UInt32) → List UInt32 → List SemanticToken
  | line, start, down :: across :: length :: kind :: bits :: rest =>
    let here := line + down
    let column := if down = 0 then start + across else across
    ⟨here, column, length, kind, modifiersOf bits⟩ :: decodeAfter here column rest
  | _, _, _ => []

/-- The tokens that numbers stand for. -/
def decode (data : List UInt32) : List SemanticToken := decodeAfter 0 0 data

/-! ## Reading back -/

/-- The token as it is read back: of its modifiers only their bits are written. -/
def readBack (t : SemanticToken) : SemanticToken :=
  { t with modifiers := modifiersOf (modifierBits t.modifiers) }

theorem decodeAfter_deltas (line start : UInt32) (tokens : List SemanticToken) :
    decodeAfter line start (deltas line start tokens) = tokens.map readBack := by
  induction tokens generalizing line start with
  | nil => rfl
  | cons t rest ih =>
    have hline : line + (t.line - line) = t.line := by
      rw [UInt32.add_comm, UInt32.sub_add_cancel]
    have hstart : (if t.line - line = 0 then start + (if t.line - line = 0 then t.start - start
        else t.start) else (if t.line - line = 0 then t.start - start else t.start)) = t.start := by
      split
      · rw [UInt32.add_comm, UInt32.sub_add_cancel]
      · rfl
    rw [deltas, decodeAfter.eq_def]
    simp only [List.cons_append, List.nil_append, hline, hstart, ih, List.map_cons, readBack]

/-- **Decoding gives the sorted tokens**, as they are read back. -/
theorem decode_encode_eq (tokens : List SemanticToken) :
    decode (encode tokens) = (tokens.mergeSort le).map readBack :=
  decodeAfter_deltas 0 0 _

/-- The bits of modifiers tell them. -/
def Legible (t : SemanticToken) : Prop := modifiersOf (modifierBits t.modifiers) = t.modifiers

theorem Legible.readBack_eq {t : SemanticToken} (h : t.Legible) : t.readBack = t := by
  rw [Legible] at h
  rw [readBack, h]

/-- Tokens whose modifiers can be read come back as they were. -/
theorem decode_encode {tokens : List SemanticToken} (h : ∀ t ∈ tokens, t.Legible) :
    decode (encode tokens) = tokens.mergeSort le := by
  have hsame : ∀ t ∈ tokens.mergeSort le, t.readBack = id t :=
    fun t ht => (h t (List.mem_mergeSort.mp ht)).readBack_eq
  rw [decode_encode_eq, List.map_congr_left hsame, List.map_id]

/-- The modifiers of a category are none, or the first. -/
theorem legible_of_tokenTypeOf? {c : Category} {p : Segment}
    (h : tokenTypeOf? c = some (p.type, p.modifiers)) : p.token.Legible := by
  have hmodifiers : p.modifiers = [] ∨ p.modifiers = [0] := by
    cases c <;> simp [tokenTypeOf?] at h <;> simp [← h.2]
  rw [Legible, Segment.token]
  dsimp only
  rcases hmodifiers with hms | hms
  · rw [hms]
    decide
  · rw [hms]
    decide

/-! ## Segments -/

/-- A token shows a segment: it has the numbers of the segment, and its type is that of the segment
in the list of token types. -/
structure Shows (t : SemanticToken) (p : Segment) : Prop where
  line : t.line.toNat = p.line
  start : t.start.toNat = p.start
  length : t.length.toNat = p.length
  type : TokenType.all[t.type.toNat]? = some p.type
  modifiers : t.modifiers = p.modifiers

theorem all_code (t : TokenType) : TokenType.all[t.code.toNat]? = some t := by
  cases t <;> rfl

theorem Shows.fits {t : SemanticToken} {p : Segment} (h : t.Shows p) : p.Fits :=
  ⟨h.line ▸ t.line.toNat_lt, h.start ▸ t.start.toNat_lt, h.length ▸ t.length.toNat_lt⟩

/-- A segment that fits is shown by its token. -/
theorem shows_token {p : Segment} (h : p.Fits) : p.token.Shows p := by
  obtain ⟨hline, hstart, hlength⟩ := h
  exact ⟨UInt32.toNat_ofNat_of_lt' hline, UInt32.toNat_ofNat_of_lt' hstart,
    UInt32.toNat_ofNat_of_lt' hlength, all_code p.type, rfl⟩

theorem le_token {p q : Segment} (hp : p.Fits) (hq : q.Fits) (h : p.Before q) :
    le p.token q.token = true := by
  have hp' := shows_token hp
  have hq' := shows_token hq
  simp only [le, Bool.or_eq_true, Bool.and_eq_true, decide_eq_true_eq, beq_iff_eq,
    UInt32.lt_iff_toNat_lt, UInt32.le_iff_toNat_le, ← UInt32.toNat_inj, hp'.line, hp'.start,
    hq'.line, hq'.start]
  rcases h with h | ⟨h, hstart⟩
  · exact .inl h
  · exact .inr ⟨h, by omega⟩

/-- **What decoding shows.** The decoded tokens show the segments, one after the other, exactly when
the numbers of all segments fit. -/
theorem forall₂_shows_iff {segments : List Segment} (hordered : segments.Pairwise Segment.Before)
    (hlegible : ∀ p ∈ segments, p.token.Legible) :
    List.Forall₂ Shows (decode (encode (segments.map Segment.token))) segments ↔
      ∀ p ∈ segments, p.Fits := by
  constructor
  · intro h p hp
    obtain ⟨i, hi, rfl⟩ := List.mem_iff_getElem.mp hp
    obtain ⟨hlen, hshows⟩ := List.forall₂_iff_get.mp h
    exact (hshows i (hlen ▸ hi) hi).fits
  · intro h
    have hsorted : (segments.map Segment.token).Pairwise fun t u => le t u = true := by
      refine List.pairwise_map.mpr (hordered.imp_of_mem fun {p q} hp hq hpq => ?_)
      exact le_token (h p hp) (h q hq) hpq
    rw [decode_encode (List.forall_mem_map.mpr hlegible), List.mergeSort_of_pairwise hsorted,
      List.forall₂_map_left_iff, List.forall₂_same]
    exact fun p hp => shows_token (h p hp)

end SemanticToken

end Yurin
