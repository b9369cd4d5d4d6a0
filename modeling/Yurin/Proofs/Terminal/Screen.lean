import Yurin.Proofs.Text.Numerals
import Yurin.Terminal.Sgr

/-!
# What a terminal shows

A terminal reads byte by byte. It draws what it reads with its pen, until it reads an escape byte:
`ESC[`, numbers with semicolons between them, and `m` change the pen.

* `Pen.apply`: what numbers do to the pen. Zero resets all, `1` and `22`, `3` and `23`, `4` and `24`
  turn bold, italic and underline on and off, and `38;2;r;g;b` sets the color. All others do
  nothing.
* `Terminal.feed`: the terminal after some bytes.
* `Draws`: bytes that are drawn with a pen, what they show, and the pen that they leave. It holds of
  texts and of sequences, and carries over to bytes one after the other.

Result: `draws_sequence`. A terminal that reads a sequence applies its numbers, each as it was
written (`feed_natText`), and shows nothing of it.
-/

namespace Yurin

/-- How a terminal draws text. -/
structure Pen where
  foreground : Option (Nat × Nat × Nat)
  bold : Bool
  italic : Bool
  underline : Bool
  deriving DecidableEq, Repr

namespace Pen

/-- The pen of a terminal that was told nothing. -/
def default : Pen := ⟨none, false, false, false⟩

/-- The pen after a number of its own. -/
def change (pen : Pen) : Nat → Pen
  | 0 => default
  | 1 => { pen with bold := true }
  | 3 => { pen with italic := true }
  | 4 => { pen with underline := true }
  | 22 => { pen with bold := false }
  | 23 => { pen with italic := false }
  | 24 => { pen with underline := false }
  | _ => pen

/-- The pen after the numbers of a sequence. Those of a color belong together. -/
def apply (pen : Pen) : List Nat → Pen
  | 38 :: 2 :: red :: green :: blue :: rest =>
    ({ pen with foreground := some (red, green, blue) } : Pen).apply rest
  | n :: rest => (pen.change n).apply rest
  | [] => pen

end Pen

/-- What a terminal is reading: text, the byte behind an escape byte, or the numbers of a sequence,
the last of them not yet at its end. -/
inductive Mode
  | text
  | escape
  | sequence (done : List Nat) (current : Nat)
  deriving DecidableEq, Repr

/-- A terminal, and what it has drawn: each byte with the pen at that moment. -/
structure Terminal where
  pen : Pen
  mode : Mode
  drawn : List (UInt8 × Pen)
  deriving DecidableEq, Repr

namespace Terminal

/-- A terminal that has read nothing. -/
def start : Terminal := ⟨.default, .text, []⟩

/-- A terminal reads one byte. A sequence that ends with another byte than `m` (109) does nothing.
-/
def step (t : Terminal) (b : UInt8) : Terminal :=
  match t.mode with
  | .text =>
    if b = Sgr.escape then { t with mode := .escape }
    else { t with drawn := t.drawn ++ [(b, t.pen)] }
  | .escape => { t with mode := if b = 91 then .sequence [] 0 else .text }
  | .sequence done current =>
    if isDigit b then { t with mode := .sequence done (current * 10 + (b.toNat - 48)) }
    else if b = 59 then { t with mode := .sequence (done ++ [current]) 0 }
    else if b = 109 then { t with pen := t.pen.apply (done ++ [current]), mode := .text }
    else { t with mode := .text }

/-- A terminal reads some bytes. -/
def feed (t : Terminal) (bytes : Bytes) : Terminal := bytes.foldl step t

theorem feed_cons (t : Terminal) (b : UInt8) (rest : Bytes) :
    t.feed (b :: rest) = (t.step b).feed rest := rfl

theorem feed_append (t : Terminal) (first second : Bytes) :
    t.feed (first ++ second) = (t.feed first).feed second := List.foldl_append

end Terminal

/-! ## Numbers -/

namespace Terminal

variable (pen : Pen) (drawn : List (UInt8 × Pen)) (done : List Nat)

/-- Digits go on with a number. -/
theorem feed_digits (current : Nat) {digits : Bytes} (h : ∀ b ∈ digits, isDigit b = true) :
    feed ⟨pen, .sequence done current, drawn⟩ digits =
      ⟨pen, .sequence done (digits.foldl (fun n b => n * 10 + (b.toNat - 48)) current), drawn⟩ := by
  induction digits generalizing current with
  | nil => rfl
  | cons b digits ih =>
    obtain ⟨hdigit, hrest⟩ := List.forall_mem_cons.mp h
    have hstep : step ⟨pen, .sequence done current, drawn⟩ b =
        ⟨pen, .sequence done (current * 10 + (b.toNat - 48)), drawn⟩ := by
      simp only [step, hdigit, if_true]
    rw [feed_cons, hstep, ih _ hrest, List.foldl_cons]

/-- **A number is read as it was written.** -/
theorem feed_natText (n : Nat) :
    feed ⟨pen, .sequence done 0, drawn⟩ (natText n) = ⟨pen, .sequence done n, drawn⟩ := by
  have hvalue := decimal_natText n
  rw [decimal] at hvalue
  rw [feed_digits pen drawn done 0 fun _ => isDigit_of_mem_natText, hvalue]

/-- The numbers of a sequence are applied when it ends. -/
theorem feed_numbers (n : Nat) (rest : List Nat) :
    feed ⟨pen, .sequence done 0, drawn⟩
        (Bytes.join (utf8 ";") ((n :: rest).map natText) ++ utf8 "m") =
      ⟨pen.apply (done ++ n :: rest), .text, drawn⟩ := by
  induction rest generalizing done n with
  | nil =>
    rw [List.map_singleton, Bytes.join, feed_append, feed_natText]
    rfl
  | cons next rest ih =>
    have hjoin : Bytes.join (utf8 ";") ((n :: next :: rest).map natText) =
        natText n ++ utf8 ";" ++ Bytes.join (utf8 ";") ((next :: rest).map natText) := rfl
    have hsemicolon : feed ⟨pen, .sequence done n, drawn⟩ (utf8 ";") =
        ⟨pen, .sequence (done ++ [n]) 0, drawn⟩ := rfl
    rw [hjoin, List.append_assoc, List.append_assoc, feed_append, feed_append, feed_natText,
      hsemicolon, ih, List.append_assoc, List.singleton_append]

end Terminal

/-! ## Drawing -/

/-- **Bytes that are drawn**: with the pen before them a terminal shows some bytes, each with the
pen of its own, and is left with the pen after them. -/
def Draws (before : Pen) (bytes : Bytes) (shown : List (UInt8 × Pen)) (after : Pen) : Prop :=
  ∀ drawn, Terminal.feed ⟨before, .text, drawn⟩ bytes = ⟨after, .text, drawn ++ shown⟩

namespace Draws

theorem nil (pen : Pen) : Draws pen [] [] pen := fun drawn => by
  rw [List.append_nil]
  rfl

/-- What is drawn one after the other. -/
theorem append {before between after : Pen} {first second : Bytes}
    {shown more : List (UInt8 × Pen)} (h : Draws before first shown between)
    (h' : Draws between second more after) : Draws before (first ++ second) (shown ++ more) after :=
  fun drawn => by rw [Terminal.feed_append, h, h', List.append_assoc]

end Draws

/-- Text without escapes is drawn as it is. -/
theorem draws_text (pen : Pen) {text : Bytes} (h : Sgr.escape ∉ text) :
    Draws pen text (text.map (·, pen)) pen := by
  induction text with
  | nil => exact .nil pen
  | cons b rest ih =>
    rw [List.mem_cons, not_or] at h
    intro drawn
    have hstep : Terminal.step ⟨pen, .text, drawn⟩ b = ⟨pen, .text, drawn ++ [(b, pen)]⟩ :=
      if_neg (Ne.symm h.1)
    rw [Terminal.feed_cons, hstep, ih h.2, List.append_assoc, List.map_cons,
      List.singleton_append]

/-- **A sequence** applies its numbers and shows nothing. -/
theorem draws_sequence (pen : Pen) {numbers : List Nat} (h : numbers ≠ []) :
    Draws pen (Sgr.sequence numbers) [] (pen.apply numbers) := by
  intro drawn
  obtain ⟨n, rest, rfl⟩ := List.exists_cons_of_ne_nil h
  have hopen : Terminal.feed ⟨pen, .text, drawn⟩ ([Sgr.escape] ++ utf8 "[") =
      ⟨pen, .sequence [] 0, drawn⟩ := rfl
  rw [Sgr.sequence, List.append_assoc, Terminal.feed_append, hopen, Terminal.feed_numbers,
    List.append_nil, List.nil_append]

end Yurin
