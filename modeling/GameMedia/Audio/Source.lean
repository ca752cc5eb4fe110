import GameMedia.Audio.Error

/-!
# Byte sources

A stream is read from a source that may give fewer bytes than it was asked for, may be interrupted, and may fail. Only
that it ends is taken for granted: a source has a measure that every read with a result brings down, which is why
reading as many bytes as are wanted comes to an end.
-/

namespace GameMedia.Audio

/-- What a read gives. No bytes mean the end. -/
inductive ReadResult where
  | bytes (bs : List UInt8)
  /-- Nothing was read, and reading goes on. -/
  | interrupted
  | failed (e : SourceError)
  deriving Inhabited

def ReadResult.goesOn : ReadResult → Bool
  | bytes bs => !bs.isEmpty
  | interrupted => true
  | failed _ => false

/-- Something that bytes are read from. -/
class ByteSource (σ : Type) where
  /-- At most so many of the next bytes. -/
  read : σ → Nat → ReadResult × σ
  seekStart : σ → Nat → Except SourceError Unit × σ
  /-- Goes to the end, and tells where it is. -/
  seekEnd : σ → Except SourceError Nat × σ
  /-- A bound on the reads before the end. -/
  left : σ → Nat
  left_read_le (s : σ) (n : Nat) : left (read s n).2 ≤ left s
  left_read_lt (s : σ) (n : Nat) (h : (read s n).1.goesOn = true) : left (read s n).2 < left s

namespace ByteSource

variable {σ : Type} [ByteSource σ]

/-- The next `n` bytes, or as many as there are before the end. -/
def fill (s : σ) (n : Nat) : Except SourceError (List UInt8) × σ :=
  if n = 0 then (.ok [], s)
  else
    match h : read s n with
    | (.bytes [], s') => (.ok [], s')
    | (.bytes (b :: bs), s') =>
      have : left s' < left s := by simpa [h] using left_read_lt s n (by simp [h, ReadResult.goesOn])
      match fill s' (n - (bs.length + 1)) with
      | (.ok more, s'') => (.ok (b :: bs ++ more), s'')
      | (.error e, s'') => (.error e, s'')
    | (.interrupted, s') =>
      have : left s' < left s := by simpa [h] using left_read_lt s n (by simp [h, ReadResult.goesOn])
      fill s' n
    | (.failed e, s') => (.error e, s')
termination_by left s

theorem left_fill_le (s : σ) (n : Nat) : left (fill s n).2 ≤ left s := by
  fun_induction fill s n with
  | case1 => exact Nat.le_refl _
  | case2 s n _ s' h => simpa [h] using left_read_le s n
  | case3 s n _ b bs s' _ hlt more s'' hfill ih => simp only [hfill] at ih ⊢; omega
  | case4 s n _ b bs s' _ hlt e s'' hfill ih => simp only [hfill] at ih ⊢; omega
  | case5 s n _ s' _ hlt ih => omega
  | case6 s n _ e s' h => simpa [h] using left_read_le s n

theorem left_fill_lt (s : σ) (n : Nat) (h : fill s n = (.ok (b :: bs), s')) : left s' < left s := by
  fun_induction fill s n generalizing b bs s' with
  | case1 => simp at h
  | case2 => simp at h
  | case3 s n _ c cs t _ hlt more t' hfill ih =>
    have := left_fill_le t (n - (cs.length + 1))
    simp only [hfill] at this
    obtain ⟨-, rfl⟩ := Prod.mk.inj h
    omega
  | case4 => simp at h
  | case5 s n _ t _ hlt ih => have := ih h; omega
  | case6 => simp at h

end ByteSource

/-! ## Sources in memory -/

structure MemorySource where
  data : Array UInt8
  pos : Nat := 0
  /-- The most bytes that one read gives. -/
  chunk : Option Nat := none
  /-- Reads from a position on fail, and those before do not reach beyond it. -/
  fault : Option (Nat × SourceError) := none
  deriving Inhabited

namespace MemorySource

def failure? (s : MemorySource) : Option SourceError :=
  s.fault.bind fun (pos, e) => if pos ≤ s.pos then some e else none

def available (s : MemorySource) (n : Nat) : Nat :=
  min (min n (s.data.size - s.pos)) (min (s.chunk.getD n) ((s.fault.map (·.1 - s.pos)).getD n))

def read (s : MemorySource) (n : Nat) : ReadResult × MemorySource :=
  match s.failure? with
  | some e => (.failed e, s)
  | none =>
    let stop := s.pos + s.available n
    (.bytes (s.data.extract s.pos stop).toList, { s with pos := stop })

theorem available_le (s : MemorySource) (n : Nat) : s.available n ≤ s.data.size - s.pos := by
  unfold available
  omega

end MemorySource

instance : ByteSource MemorySource where
  read := MemorySource.read
  seekStart s pos := (.ok (), { s with pos })
  seekEnd s := (.ok s.data.size, { s with pos := s.data.size })
  left s := s.data.size - s.pos
  left_read_le s n := by
    unfold MemorySource.read
    split <;> simp only <;> omega
  left_read_lt s n h := by
    have := s.available_le n
    unfold MemorySource.read at h ⊢
    split at h
    · simp [ReadResult.goesOn] at h
    · have : s.available n ≠ 0 := by
        intro h0
        simp [ReadResult.goesOn, h0] at h
      simp only
      omega

end GameMedia.Audio
