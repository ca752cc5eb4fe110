import GameMedia.Proofs.Audio.Positions

/-!
# Reading in parts

A source gives its bytes in parts of any size and may be interrupted between them, and a decoder is read in parts of any
size as well. None of this can be heard. What a stream plays is a tape of bytes with failures in between that follows
from the bytes of the stream alone. Every decoder over the stream, however it is read, gives a beginning of this tape,
and reports the end only where the tape ends.
-/

namespace GameMedia.Audio

open List Except ByteSource

/-! ## The tape of a stream -/

/-- What a stream has at a place: a frame, or something that is none and cannot be skipped. -/
inductive Item where
  | frame (f : Frame)
  | failure (e : AudioError)

/-- What a decoder gives: a byte of sound, or a failure. -/
inductive Event where
  | byte (b : UInt8)
  | failure (e : AudioError)
  deriving DecidableEq, Repr

/-- All that a stream has from a position on. -/
def items (data : List UInt8) (pos : Nat) : List Item :=
  match h : nextFrame data pos with
  | .ok none => []
  | .ok (some f) =>
    have := lt_nextStop (show nextFrame data pos ≠ .ok none by rw [h]; simp)
    .frame f :: items data (nextStop data pos)
  | .error e =>
    have := lt_nextStop (show nextFrame data pos ≠ .ok none by rw [h]; simp)
    .failure e :: items data (nextStop data pos)
termination_by data.length - pos

section

variable {data : List UInt8} {pos : Nat} {f : Frame} {e : AudioError}

theorem items_none (h : nextFrame data pos = .ok none) : items data pos = [] := by
  rw [items]
  split
  · rfl
  · next hf => rw [h] at hf; cases hf
  · next he => rw [h] at he; cases he

theorem items_some (h : nextFrame data pos = .ok (some f)) :
    items data pos = .frame f :: items data (nextStop data pos) := by
  rw [items]
  split
  · next hnone => rw [h] at hnone; cases hnone
  · next g hg =>
    rw [h] at hg
    obtain rfl := Option.some.inj (ok.inj hg)
    rfl
  · next he => rw [h] at he; cases he

theorem items_error (h : nextFrame data pos = .error e) :
    items data pos = .failure e :: items data (nextStop data pos) := by
  rw [items]
  split
  · next hnone => rw [h] at hnone; cases hnone
  · next hf => rw [h] at hf; cases hf
  · next e' he =>
    rw [h] at he
    obtain rfl := error.inj he
    rfl

end

def gave : Except AudioError (Array UInt8) → List Event
  | .ok out => out.toList.map .byte
  | .error e => [.failure e]

namespace FrameDecoder

/-- What a frame adds to the tape: its sound, or silence behind the failure if it does not decode. -/
def framePart (s : FrameDecoder) (f : Frame) : List Event :=
  match (s.decode f).1 with
  | .ok pcm => pcm.toList.map .byte
  | .error e => .failure e :: List.replicate bytesPerFrame (.byte 0)

/-- What each item of a stream adds to the tape. -/
def parts (s : FrameDecoder) : List Item → List (List Event)
  | [] => []
  | .frame f :: rest => s.framePart f :: (s.decode f).2.parts rest
  | .failure e :: rest => [.failure e] :: s.parts rest

end FrameDecoder

def tape (data : List UInt8) : List Event := (({} : FrameDecoder).parts (items data 0)).flatten

/-- **What an item may add to a tape**: a frame has `bytesPerFrame` bytes, also if it does not decode. -/
inductive Contributes : Item → List Event → Prop
  | sound {f : Frame} {pcm : List UInt8} : pcm.length = bytesPerFrame → Contributes (.frame f) (pcm.map .byte)
  | silence {f : Frame} {e : AudioError} :
    Contributes (.frame f) (.failure e :: List.replicate bytesPerFrame (.byte 0))
  | failure {e : AudioError} : Contributes (.failure e) [.failure e]

theorem FrameDecoder.contributes_framePart (s : FrameDecoder) (f : Frame) :
    Contributes (.frame f) (s.framePart f) := by
  unfold framePart
  split
  · next pcm hpcm =>
    refine .sound ?_
    rw [Array.length_toList]
    exact size_decode hpcm
  · exact .silence

theorem FrameDecoder.contributes_parts (s : FrameDecoder) (found : List Item) :
    List.Forall₂ Contributes found (s.parts found) := by
  induction found generalizing s with
  | nil => exact .nil
  | cons item found ih =>
    cases item with
    | frame f => exact .cons (s.contributes_framePart f) (ih _)
    | failure e => exact .cons .failure (ih _)

/-! ## What is left of the tape -/

section

variable {σ : Type} {data : List UInt8} {At : σ → Nat → Prop}

/-- The decoder is somewhere in a stream, and this much of the tape is left: what was not read of the latest frame, and
what is behind the position of the source. -/
structure Leaves (data : List UInt8) (At : σ → Nat → Prop) (d : Decoder σ) (left : List Event) : Prop where
  cursor : d.cursor ≤ d.pcm.size
  left : ∃ pos, Placed At d.frames pos ∧
    left = (d.pcm.toList.drop d.cursor).map .byte ++ (d.state.parts (items data pos)).flatten

variable {d : Decoder σ} {left : List Event}

/-- What is read of the latest frame is the first of what is left. -/
theorem Leaves.skip (hd : Leaves data At d left) (n : Nat) :
    ∃ left', Leaves data At (d.skip (d.unread n).size) left' ∧ left = gave (.ok (d.unread n)) ++ left' := by
  obtain ⟨hcursor, pos, hpos, rfl⟩ := hd
  have hprefix := unread_prefix d n
  have hsize := hprefix.length_le
  rw [length_drop, Array.length_toList, Array.length_toList] at hsize
  refine ⟨_, ⟨?_, pos, hpos, rfl⟩, ?_⟩
  · change d.cursor + (d.unread n).size ≤ d.pcm.size
    omega
  · change _ = (d.unread n).toList.map .byte ++
      ((d.pcm.toList.drop (d.cursor + (d.unread n).size)).map .byte ++ (d.state.parts (items data pos)).flatten)
    have hsplit : d.pcm.toList.drop d.cursor =
        (d.unread n).toList ++ d.pcm.toList.drop (d.cursor + (d.unread n).size) := by
      rw [← drop_drop, ← Array.length_toList]
      exact (prefix_iff_eq_append.mp hprefix).symm
    rw [hsplit, map_append, append_assoc]

variable [ByteSource σ]

/-- Where all of the latest frame was read, the decoder goes on to what the stream has next. -/
theorem Leaves.advance (h : Steady data At) (hd : Leaves data At d left) (hread : d.cursor = d.pcm.size) :
    (∃ d', d.advance = (.ok false, d') ∧ Leaves data At d' [] ∧ left = []) ∨
    (∃ d', d.advance = (.ok true, d') ∧ Leaves data At d' left ∧ d'.cursor < d'.pcm.size) ∨
    ∃ e d' left', d.advance = (.error e, d') ∧ Leaves data At d' left' ∧ left = .failure e :: left' := by
  obtain ⟨-, pos, hpos, rfl⟩ := hd
  have hnone : d.pcm.toList.drop d.cursor = [] := by simp [hread]
  obtain ⟨r', hnext, hr'⟩ := (h.next? hpos).exists
  rw [hnone, map_nil, nil_append]
  cases hframe : nextFrame data pos with
  | error e =>
    rw [hframe] at hnext
    rw [items_error hframe]
    refine .inr (.inr ⟨e, _, _, advance_error hnext, ⟨hread.le, _, hr', rfl⟩, ?_⟩)
    simp [hnone, FrameDecoder.parts]
  | ok found =>
    rw [hframe] at hnext
    cases found with
    | none =>
      have hend : items data (nextStop data pos) = [] := items_none (nextFrame_end (nextStop_of_none hframe))
      rw [items_none hframe]
      refine .inl ⟨_, advance_none hnext, ⟨le_rfl, _, hr', ?_⟩, rfl⟩
      rw [hend]
      rfl
    | some f =>
      obtain ⟨pcm, hpcm, hadvance⟩ := advance_some hnext
      rw [items_some hframe, FrameDecoder.parts, flatten_cons, FrameDecoder.framePart, hpcm]
      refine .inr (.inl ⟨_, hadvance, ⟨Nat.zero_le _, _, hr', rfl⟩, ?_⟩)
      change 0 < pcm.size
      rw [FrameDecoder.size_decode hpcm]
      decide

/-- **A read gives the first of what is left**, and no bytes only where nothing is left. -/
theorem Leaves.read (h : Steady data At) (hd : Leaves data At d left) (hn : n ≠ 0) :
    ∃ left', Leaves data At (d.read n).2 left' ∧ left = gave (d.read n).1 ++ left' ∧
      ((d.read n).1 = .ok #[] → left = []) := by
  have hok : ∀ {e : Decoder σ}, e.cursor < e.pcm.size →
      (ok (e.unread n) : Except AudioError (Array UInt8)) ≠ .ok #[] :=
    fun hlt heq => unread_ne_empty hn hlt (ok.inj heq)
  rw [Decoder.read, if_neg hn]
  by_cases hread : d.cursor = d.pcm.size
  · rw [if_pos hread]
    rcases hd.advance h hread with ⟨d', hadvance, hd', rfl⟩ | ⟨d', hadvance, hd', hlt⟩ |
      ⟨e, d', left', hadvance, hd', rfl⟩
    · rw [hadvance]
      exact ⟨[], hd', rfl, fun _ => rfl⟩
    · rw [hadvance]
      obtain ⟨left', hskip, hleft⟩ := hd'.skip n
      exact ⟨left', hskip, hleft, fun hempty => absurd hempty (hok hlt)⟩
    · rw [hadvance]
      exact ⟨left', hd', rfl, fun hempty => by cases hempty⟩
  · rw [if_neg hread]
    obtain ⟨left', hskip, hleft⟩ := hd.skip n
    exact ⟨left', hskip, hleft, fun hempty => absurd hempty (hok (lt_of_le_of_ne hd.cursor hread))⟩

end

/-! ## Reads -/

section

variable {σ : Type} [ByteSource σ] {data : List UInt8} {At : σ → Nat → Prop} {d : Decoder σ} {left : List Event}

/-- What reads of the given sizes give, one after another. -/
def Decoder.trace (d : Decoder σ) : List Nat → List Event
  | [] => []
  | n :: sizes => gave (d.read n).1 ++ (d.read n).2.trace sizes

/-- The decoder gives this tape: reads of any sizes give a beginning of it, and a read of some bytes gives none just where
the tape ends. -/
structure Plays (d : Decoder σ) (tape : List Event) : Prop where
  along : ∀ sizes, d.trace sizes <+: tape
  ends : ∀ sizes n, n ≠ 0 → (((d.calls (sizes.map .read)).read n).1 = .ok #[] ↔ d.trace sizes = tape)

theorem read_zero (d : Decoder σ) : d.read 0 = (.ok #[], d) := by
  rw [Decoder.read, if_pos rfl]

theorem Leaves.reads (h : Steady data At) (hd : Leaves data At d left) (sizes : List Nat) :
    ∃ left', Leaves data At (d.calls (sizes.map .read)) left' ∧ left = d.trace sizes ++ left' := by
  induction sizes generalizing d left with
  | nil => exact ⟨left, hd, rfl⟩
  | cons n sizes ih =>
    obtain ⟨left₁, hd₁, hleft₁⟩ : ∃ left₁, Leaves data At (d.read n).2 left₁ ∧ left = gave (d.read n).1 ++ left₁ := by
      by_cases hn : n = 0
      · subst hn
        rw [read_zero]
        exact ⟨left, hd, rfl⟩
      · obtain ⟨left₁, hd₁, hleft₁, -⟩ := hd.read h hn
        exact ⟨left₁, hd₁, hleft₁⟩
    obtain ⟨left₂, hd₂, hleft₂⟩ := ih hd₁
    refine ⟨left₂, hd₂, ?_⟩
    rw [hleft₁, hleft₂, Decoder.trace, append_assoc]

theorem Leaves.plays (h : Steady data At) (hd : Leaves data At d left) : Plays d left where
  along := by
    intro sizes
    obtain ⟨left', -, hleft⟩ := hd.reads h sizes
    exact ⟨left', hleft.symm⟩
  ends := by
    intro sizes n hn
    obtain ⟨left', hd', hleft⟩ := hd.reads h sizes
    obtain ⟨left'', -, hgave, hempty⟩ := hd'.read h hn
    rw [hleft, self_eq_append_right]
    refine ⟨hempty, fun hnil => ?_⟩
    rw [hnil] at hgave
    cases hresult : ((d.calls (sizes.map .read)).read n).1 with
    | ok out =>
      rw [hresult] at hgave
      have hout : out.toList = [] := by simpa [gave] using (append_eq_nil_iff.mp hgave.symm).1
      rw [Array.toList_eq_nil_iff.mp hout]
    | error e =>
      rw [hresult] at hgave
      exact absurd hgave (by simp [gave])

/-! ## Opening -/

def streamRate (data : List UInt8) : Except AudioError Nat :=
  match nextFrame data 0 with
  | .error e => .error e
  | .ok none => .error .noFrames
  | .ok (some f) => (({} : FrameDecoder).decode f).1.map fun _ => f.header.rate.hertz

/-- Opening a stream finds its rate, and leaves its whole tape. -/
theorem Steady.ofSource (h : Steady data At) (hsource : At source 0) :
    (Decoder.ofSource source).1.map Decoder.sampleRate = streamRate data ∧
      ∀ d, (Decoder.ofSource source).1 = .ok d → Leaves data At d (tape data) := by
  have hplaced : Placed At ⟨source, 0⟩ 0 := ⟨hsource, rfl⟩
  obtain ⟨r', hnext, hr'⟩ := (h.next? hplaced).exists
  rw [Decoder.ofSource, streamRate, hnext]
  cases hframe : nextFrame data 0 with
  | error e => exact ⟨rfl, fun d hd => by cases hd⟩
  | ok found =>
    cases found with
    | none => exact ⟨rfl, fun d hd => by cases hd⟩
    | some f =>
      obtain ⟨pcm, hpcm, hdecode⟩ := exists_decode { frames := r', sampleRate := f.header.rate.hertz } f
      dsimp only at hpcm ⊢
      rw [hdecode, hpcm]
      refine ⟨rfl, fun d hd => ?_⟩
      cases hd
      refine ⟨Nat.zero_le _, _, hr', ?_⟩
      rw [tape, items_some hframe, FrameDecoder.parts, flatten_cons, FrameDecoder.framePart, hpcm]
      rfl

end

/-! ## Parts are not heard -/

/-- **Neither the parts in which a source gives its bytes nor those in which a decoder is read make a difference.** Over
the same bytes, decoders fail to open with the same error or have the same rate, and give the same tape, to which each
frame adds `bytesPerFrame` bytes. -/
theorem parts_unheard {σ τ : Type} [ByteSource σ] [ByteSource τ] {data : List UInt8} {At : σ → Nat → Prop}
    {At' : τ → Nat → Prop} (h : Steady data At) (h' : Steady data At') {source : σ} {source' : τ}
    (hsource : At source 0) (hsource' : At' source' 0) :
    (Decoder.ofSource source).1.map Decoder.sampleRate = streamRate data ∧
      (Decoder.ofSource source').1.map Decoder.sampleRate = streamRate data ∧
      List.Forall₂ Contributes (items data 0) (({} : FrameDecoder).parts (items data 0)) ∧
      (∀ d, (Decoder.ofSource source).1 = .ok d → Plays d (tape data)) ∧
      ∀ d', (Decoder.ofSource source').1 = .ok d' → Plays d' (tape data) := by
  obtain ⟨hrate, hleaves⟩ := h.ofSource hsource
  obtain ⟨hrate', hleaves'⟩ := h'.ofSource hsource'
  refine ⟨hrate, hrate', FrameDecoder.contributes_parts _ _, ?_, ?_⟩
  · intro d hd
    exact (hleaves d hd).plays h
  · intro d' hd'
    exact (hleaves' d' hd').plays h'

theorem quietStream_rate : streamRate quietStream = .ok 44100 := by
  have hframe : nextFrame quietStream 0 = .ok (some (quietFrame 0 0)) := rfl
  obtain ⟨pcm, hpcm⟩ := FrameDecoder.exists_decode {} (quietFrame 0 0)
  rw [streamRate, hframe]
  dsimp only
  rw [hpcm]
  rfl

theorem of_map_ok {ε α β : Type} {x : Except ε α} {f : α → β} {b : β} (h : x.map f = .ok b) :
    ∃ a, x = .ok a ∧ f a = b := by
  cases x with
  | error e => cases h
  | ok a => exact ⟨a, rfl, ok.inj h⟩

/-- A source that gives its bytes one by one, and one that gives as many as are wanted. -/
theorem quietStream_unheard : ∃ d d' : Decoder MemorySource,
    (Decoder.ofSource ({ data := quietStream.toArray, chunk := some 1 } : MemorySource)).1 = .ok d ∧
      (Decoder.ofSource ({ data := quietStream.toArray } : MemorySource)).1 = .ok d' ∧
      d.sampleRate = 44100 ∧ d'.sampleRate = 44100 ∧ Plays d (tape quietStream) ∧ Plays d' (tape quietStream) := by
  have h := (MemorySource.serves quietStream).steady
  have hsingle : MemorySource.Holds quietStream { data := quietStream.toArray, chunk := some 1 } 0 :=
    ⟨rfl, rfl, rfl, by simp⟩
  have hwhole : MemorySource.Holds quietStream { data := quietStream.toArray } 0 := ⟨rfl, rfl, rfl, by simp⟩
  obtain ⟨hrate, hrate', -, hplays, hplays'⟩ := parts_unheard h h hsingle hwhole
  rw [quietStream_rate] at hrate hrate'
  obtain ⟨d, hd, hrate⟩ := of_map_ok hrate
  obtain ⟨d', hd', hrate'⟩ := of_map_ok hrate'
  exact ⟨d, d', hd, hd', hrate, hrate', hplays d hd, hplays' d' hd'⟩

end GameMedia.Audio
