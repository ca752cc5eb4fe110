import GameMedia.Audio.FrameDecoder
import GameMedia.Audio.Source

/-!
# Finding frames

Bytes that cannot begin a frame are skipped one by one. A word that begins a frame of another version or layer is an
error, and so is the end of the stream inside a frame.
-/

namespace GameMedia.Audio

open ByteSource

/-- A source and where in the stream it is. -/
structure FrameReader (σ : Type) where
  source : σ
  pos : Nat := 0
  deriving Inhabited

namespace FrameReader

variable {σ : Type} [ByteSource σ]

/-- The next `n` bytes, or as many as there are. The position stays as it was if the source fails. -/
def take (r : FrameReader σ) (n : Nat) : Except SourceError (List UInt8) × FrameReader σ :=
  match fill r.source n with
  | (.ok bs, source) => (.ok bs, ⟨source, r.pos + bs.length⟩)
  | (.error e, source) => (.error e, { r with source })

theorem left_take_le (r : FrameReader σ) (n : Nat) : left (r.take n).2.source ≤ left r.source := by
  have := left_fill_le r.source n
  unfold take
  split <;> simp_all

theorem left_take_lt (r : FrameReader σ) (n : Nat) (h : r.take n = (.ok (b :: bs), r')) : left r'.source < left r.source := by
  unfold take at h
  split at h
  · next s hfill =>
    obtain ⟨h₁, rfl⟩ := Prod.mk.inj h
    obtain rfl := Except.ok.inj h₁
    exact left_fill_lt _ _ hfill
  · simp at h

/-- The word with one more byte at its end and without its first. -/
def shift (word : UInt32) (b : UInt8) : UInt32 := (word <<< 8) ||| b.toUInt32

/-- The word of four bytes, the first the highest. -/
def wordOf (bs : List UInt8) : UInt32 := bs.foldl shift 0

/-- The first header from a word on, and where it is. `offset` is that of the word. -/
def sync (r : FrameReader σ) (offset : Nat) (word : UInt32) :
    Except AudioError (Option (Nat × Header)) × FrameReader σ :=
  match Header.ofWord word with
  | .ok h => (.ok (some (offset, h)), r)
  | .error (.invalidHeader _) =>
    match h : r.take 1 with
    | (.ok (b :: _), r') =>
      have := left_take_lt r 1 h
      sync r' (offset + 1) (shift word b)
    | (.ok [], r') => (.ok none, r')
    | (.error e, r') => (.error (.source e), r')
  | .error e => (.error e, r)
termination_by left r.source

def readBody (r : FrameReader σ) (offset : Nat) (h : Header) : Except AudioError Frame × FrameReader σ :=
  if Header.maxFrameSize < h.frameSize then (.error (.frameTooLarge h.frameSize), r)
  else
    match r.take (h.frameSize - 4) with
    | (.ok bs, r) =>
      if bs.length < h.frameSize - 4 then (.error .truncated, r) else (.ok ⟨offset, h, bs.toArray⟩, r)
    | (.error e, r) => (.error (.source e), r)

def next? (r : FrameReader σ) : Except AudioError (Option Frame) × FrameReader σ :=
  match r.take 4 with
  | (.error e, r) => (.error (.source e), r)
  | (.ok bs, r) =>
    if bs.length < 4 then (.ok none, r)
    else
      match r.sync (r.pos - 4) (wordOf bs) with
      | (.error e, r) => (.error e, r)
      | (.ok none, r) => (.ok none, r)
      | (.ok (some (offset, h)), r) =>
        match r.readBody offset h with
        | (.ok f, r) => (.ok (some f), r)
        | (.error e, r) => (.error e, r)

theorem left_sync_le (r : FrameReader σ) (offset : Nat) (word : UInt32) :
    left (r.sync offset word).2.source ≤ left r.source := by
  fun_induction sync r offset word with
  | case1 => exact Nat.le_refl _
  | case2 r _ _ _ _ b bs r' h this ih => omega
  | case3 r _ _ _ _ r' h => simpa [h] using left_take_le r 1
  | case4 r _ _ _ _ e r' h => simpa [h] using left_take_le r 1
  | case5 => exact Nat.le_refl _

theorem left_readBody_le (r : FrameReader σ) (offset : Nat) (h : Header) :
    left (r.readBody offset h).2.source ≤ left r.source := by
  have := left_take_le r (h.frameSize - 4)
  unfold readBody
  split
  · exact Nat.le_refl _
  · split <;> simp_all
    split <;> simpa

/-- Each frame brings the end of the source nearer. -/
theorem left_next?_lt {r r' : FrameReader σ} (h : r.next? = (.ok (some f), r')) : left r'.source < left r.source := by
  unfold next? at h
  split at h
  · simp at h
  · next bs r₁ htake =>
    split at h
    · simp at h
    · next hlen =>
      have h₁ : left r₁.source < left r.source := by
        match bs, htake, hlen with
        | b :: bs, htake, _ => exact left_take_lt r 4 htake
        | [], _, hlen => simp at hlen
      have h₂ := left_sync_le r₁ (r₁.pos - 4) (wordOf bs)
      split at h
      · simp at h
      · simp at h
      · next offset hd r₂ hsync =>
        have h₃ := left_readBody_le r₂ offset hd
        simp only [hsync] at h₂
        split at h
        · next f' r₃ hbody =>
          obtain ⟨-, rfl⟩ := Prod.mk.inj h
          simp only [hbody] at h₃
          omega
        · simp at h

end FrameReader

end GameMedia.Audio
