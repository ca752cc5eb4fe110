import Mathlib
import GameMedia.Audio.Decoder

/-!
# Frames of a stream

Which frames a stream has depends on its bytes alone. A source may give them in parts of any size and may be
interrupted; as long as it does not fail, a reader finds at each position the frame that `nextFrame` finds in the bytes.
A frame that was found is found again from its own offset, so a scan of the stream tells where to go back to.
-/

namespace GameMedia.Audio

open List Option Except Prod ByteSource

variable {offset pos : Nat} {bs data : List UInt8} {h : Header} {f : Frame}

/-! ## Sources -/

/-- Sources that give the bytes of `data`, and have no failures but those of `Fault`. `At s pos` says that a source is at
a position. -/
structure Delivers {σ : Type} [ByteSource σ] (data : List UInt8) (At : σ → Nat → Prop) (Fault : SourceError → Prop) :
    Prop where
  /-- A read is interrupted, or fails, or gives some of the next bytes, and none only at the end. -/
  read : ∀ {s pos n}, At s pos → 0 < n →
    (∃ s', read s n = (.interrupted, s') ∧ At s' pos) ∨
    (∃ e s', read s n = (.failed e, s') ∧ Fault e ∧ At s' pos) ∨
    ∃ bs s', read s n = (.bytes bs, s') ∧ At s' (pos + bs.length) ∧ bs <+: data.drop pos ∧ bs.length ≤ n ∧
      (bs = [] → data.length ≤ pos)

abbrev Steady {σ : Type} [ByteSource σ] (data : List UInt8) (At : σ → Nat → Prop) : Prop :=
  Delivers data At fun _ => False

/-- Sources that give the bytes of `data` and go to positions, and have no failures but those of `Fault`. One that
failed to go to a position can be anywhere. -/
structure Seekable {σ : Type} [ByteSource σ] (data : List UInt8) (At : σ → Nat → Prop) (Fault : SourceError → Prop) :
    Prop extends Delivers data At Fault where
  seekStart : ∀ {s pos} start, At s pos →
    (∃ e s' q, seekStart s start = (.error e, s') ∧ Fault e ∧ At s' q) ∨
    ∃ s', seekStart s start = (.ok (), s') ∧ At s' start
  seekEnd : ∀ {s pos}, At s pos →
    (∃ e s' q, seekEnd s = (.error e, s') ∧ Fault e ∧ At s' q) ∨
    ∃ s', seekEnd s = (.ok data.length, s') ∧ At s' data.length

/-- Sources that give the bytes of `data` and do not fail, also not when they go to a position. -/
structure Serves {σ : Type} [ByteSource σ] (data : List UInt8) (At : σ → Nat → Prop) : Prop where
  /-- A read is interrupted, or gives some of the next bytes, and none only at the end. -/
  read : ∀ {s pos n}, At s pos → 0 < n →
    (∃ s', read s n = (.interrupted, s') ∧ At s' pos) ∨
    ∃ bs s', read s n = (.bytes bs, s') ∧ At s' (pos + bs.length) ∧ bs <+: data.drop pos ∧ bs.length ≤ n ∧
      (bs = [] → data.length ≤ pos)
  seekStart : ∀ {s pos} start, At s pos → ∃ s', seekStart s start = (.ok (), s') ∧ At s' start
  seekEnd : ∀ {s pos}, At s pos → ∃ s', seekEnd s = (.ok data.length, s') ∧ At s' data.length

section

variable {σ : Type} [ByteSource σ] {data : List UInt8} {At : σ → Nat → Prop}

theorem Serves.seekable (h : Serves data At) : Seekable data At fun _ => False where
  read := by
    intro s pos n hs hn
    rcases h.read hs hn with hinterrupted | hbytes
    · exact .inl hinterrupted
    · exact .inr (.inr hbytes)
  seekStart := fun start hs => .inr (h.seekStart start hs)
  seekEnd := fun hs => .inr (h.seekEnd hs)

theorem Serves.steady (h : Serves data At) : Steady data At := h.seekable.toDelivers

instance : CoeOut (Serves data At) (Steady data At) := ⟨Serves.steady⟩

end

/-- A source in memory that has no fault and gives at least one byte in a read. -/
structure MemorySource.Holds (data : List UInt8) (s : MemorySource) (pos : Nat) : Prop where
  data : s.data.toList = data
  pos : s.pos = pos
  fault : s.fault = none
  chunk : s.chunk ≠ some 0

theorem MemorySource.serves (data : List UInt8) : Serves data (MemorySource.Holds data) where
  read := by
    intro s pos n hs hn
    obtain ⟨rfl, rfl, hfault, hchunk⟩ := hs
    have hfail : s.failure? = none := by rw [MemorySource.failure?, hfault]; rfl
    have havail : s.available n ≤ n ∧ s.available n ≤ s.data.size - s.pos := by
      unfold MemorySource.available
      omega
    have hsize : (s.data.extract s.pos (s.pos + s.available n)).toList.length = s.available n := by
      simp only [Array.length_toList, Array.size_extract]
      omega
    refine .inr ⟨(s.data.extract s.pos (s.pos + s.available n)).toList, { s with pos := s.pos + s.available n }, ?_, ?_,
      ?_, ?_, ?_⟩
    · change MemorySource.read s n = _
      rw [MemorySource.read, hfail]
    · exact ⟨rfl, by rw [hsize], hfault, hchunk⟩
    · rw [Array.toList_extract, extract_eq_take_drop]
      exact take_prefix _ _
    · rw [hsize]
      exact havail.1
    · intro hnil
      rw [hnil, length_nil] at hsize
      -- a read of at least one byte gives none only where there are none
      have hzero : min n (s.data.size - s.pos) = 0 ∨ s.chunk.getD n = 0 := by
        simp only [MemorySource.available, hfault, map_none, getD_none] at hsize
        omega
      rcases hzero with hzero | hzero
      · rw [Array.length_toList]
        omega
      · cases hc : s.chunk with
        | none => rw [hc, getD_none] at hzero; omega
        | some c => rw [hc, getD_some] at hzero; exact absurd (hzero ▸ hc) hchunk
  seekStart := fun start hs => ⟨_, rfl, hs.data, rfl, hs.fault, hs.chunk⟩
  seekEnd := by
    intro s pos hs
    obtain ⟨rfl, -, hfault, hchunk⟩ := hs
    refine ⟨{ s with pos := s.data.size }, ?_, rfl, Array.length_toList.symm, hfault, hchunk⟩
    rw [Array.length_toList]
    rfl

section

variable {σ : Type} [ByteSource σ] {data : List UInt8} {At : σ → Nat → Prop} {Fault : SourceError → Prop}

theorem Delivers.of_read (h : Delivers data At Fault) (hs : At s pos) (hn : n ≠ 0)
    (hread : ByteSource.read s n = (result, s')) : match result with
      | .interrupted => At s' pos
      | .failed e => Fault e ∧ At s' pos
      | .bytes bs =>
        At s' (pos + bs.length) ∧ bs <+: data.drop pos ∧ bs.length ≤ n ∧ (bs = [] → data.length ≤ pos) := by
  rcases h.read hs (Nat.pos_of_ne_zero hn) with ⟨t, ht, hat⟩ | ⟨e, t, ht, hat⟩ | ⟨cs, t, ht, hat⟩
  all_goals
    rw [hread] at ht
    cases ht
    exact hat

/-- Reading so many bytes gives the next of them, or all that are left, unless the source fails. -/
theorem Delivers.fill (h : Delivers data At Fault) (hs : At s pos) (n : Nat) : match fill s n with
      | (.error e, s') => Fault e ∧ ∃ q, At s' q
      | (.ok bs, s') => bs = (data.drop pos).take n ∧ At s' (pos + bs.length) := by
  fun_induction ByteSource.fill s n generalizing pos with
  | case1 s => exact ⟨rfl, hs⟩
  | case2 s n hn s₁ hread =>
    obtain ⟨hat, -, -, hend⟩ := h.of_read hs hn hread
    exact ⟨by rw [drop_eq_nil_of_le (hend rfl), take_nil], hat⟩
  | case3 s n hn b bs s₁ hread hlt more s₂ hmore ih =>
    obtain ⟨hat, ⟨rest, hrest⟩, hle, -⟩ := h.of_read hs hn hread
    have hlater := ih hat
    rw [hmore] at hlater
    obtain ⟨rfl, hat'⟩ := hlater
    -- what is read first and what follows are the next bytes together
    have hdrop : data.drop (pos + (b :: bs).length) = rest := by rw [← drop_drop, ← hrest, drop_left]
    constructor
    · rw [hdrop, ← hrest, take_append, take_of_length_le hle, length_cons]
    · rw [length_append, ← Nat.add_assoc]
      exact hat'
  | case4 s n hn b bs s₁ hread hlt e s₂ hmore ih =>
    have hlater := ih (h.of_read hs hn hread).1
    rwa [hmore] at hlater
  | case5 s n hn s₁ hread hlt ih => exact ih (h.of_read hs hn hread)
  | case6 s n hn e s₁ hread =>
    obtain ⟨hfault, hat⟩ := h.of_read hs hn hread
    exact ⟨hfault, pos, hat⟩

/-! ## Readers -/

/-- The reader is at a position and knows it. -/
structure Placed (At : σ → Nat → Prop) (r : FrameReader σ) (pos : Nat) : Prop where
  source : At r.source pos
  pos : r.pos = pos

theorem Delivers.of_take (h : Delivers data At Fault) (hr : Placed At r pos) (htake : r.take n = (result, r')) :
    match result with
      | .error e => Fault e ∧ ∃ q, At r'.source q
      | .ok bs => bs = (data.drop pos).take n ∧ Placed At r' (pos + bs.length) := by
  have hfilled := h.fill hr.source n
  unfold FrameReader.take at htake
  split at htake
  · next hfill =>
    cases htake
    rw [hfill] at hfilled
    exact ⟨hfilled.1, hfilled.2, by rw [hr.pos]⟩
  · next hfill =>
    cases htake
    rwa [hfill] at hfilled

def Tells {α : Type} (At : σ → Nat → Prop) (Fault : SourceError → Prop) (x : Except AudioError α × FrameReader σ)
    (a : Except AudioError α) (S : FrameReader σ → Prop) : Prop :=
  (∃ e q, x.1 = .error (.source e) ∧ Fault e ∧ At x.2.source q) ∨ x.1 = a ∧ S x.2

section

variable {α : Type} {x : Except AudioError α × FrameReader σ} {a : Except AudioError α} {S : FrameReader σ → Prop}

omit [ByteSource σ] in
theorem Tells.ok (h : Tells At Fault x a S) (hx : x = (.ok b, r)) : a = .ok b ∧ S r := by
  subst hx
  rcases h with ⟨e, q, he, -⟩ | ⟨ha, hr⟩
  · cases he
  · exact ⟨ha.symm, hr⟩

omit [ByteSource σ] in
theorem Tells.exists (h : Tells At (fun _ => False) x a S) : ∃ r, x = (a, r) ∧ S r := by
  rcases h with ⟨e, q, -, hfalse, -⟩ | ⟨ha, hr⟩
  · exact hfalse.elim
  · exact ⟨x.2, Prod.ext ha rfl, hr⟩

end

end

/-! ## Headers -/

/-- The next byte pushes the first of four out of their word. -/
theorem FrameReader.shift_wordOf (a b c d e : UInt8) :
    FrameReader.shift (FrameReader.wordOf [a, b, c, d]) e = FrameReader.wordOf [b, c, d, e] := by
  have hshift : ∀ x : UInt32, (x <<< 8).toBitVec = x.toBitVec <<< 8 := fun _ => rfl
  apply UInt32.eq_of_toBitVec_eq
  simp [FrameReader.wordOf, FrameReader.shift, hshift, BitVec.shiftLeft_or_distrib]

def headerFrom (offset : Nat) : List UInt8 → Except AudioError (Option (Nat × Header))
  | a :: b :: c :: d :: rest =>
    match Header.ofWord (FrameReader.wordOf [a, b, c, d]) with
    | .ok h => .ok (some (offset, h))
    | .error (.invalidHeader _) => headerFrom (offset + 1) (b :: c :: d :: rest)
    | .error e => .error e
  | _ => .ok none

theorem headerFrom_short (h : bs.length < 4) : headerFrom offset bs = .ok none := by
  unfold headerFrom
  split
  · simp only [length_cons] at h
    omega
  · rfl

/-- Where a search for a header ends: behind the word that is none of those to skip, or at the end. -/
def headerStop (offset : Nat) : List UInt8 → Nat
  | a :: b :: c :: d :: rest =>
    match Header.ofWord (FrameReader.wordOf [a, b, c, d]) with
    | .error (.invalidHeader _) => headerStop (offset + 1) (b :: c :: d :: rest)
    | _ => offset + 4
  | bs => offset + bs.length

theorem headerStop_short (h : bs.length < 4) : headerStop offset bs = offset + bs.length := by
  unfold headerStop
  split
  · simp only [length_cons] at h
    omega
  · rfl

/-- Where a search ends that begins at an offset and finds something. Behind a header it is right behind its word, and from
there the header is found at once; where there is none, it is at the end of the bytes. -/
def Found (offset : Nat) (bs : List UInt8) (stop : Nat) : Except AudioError (Option (Nat × Header)) → Prop
  | .ok (some (o, h)) => offset ≤ o ∧ stop = o + 4 ∧ headerFrom o (bs.drop (o - offset)) = .ok (some (o, h))
  | .ok none => stop = offset + bs.length
  | .error _ => offset < stop

theorem Found.earlier (h : Found (offset + 1) bs stop found) (a : UInt8) : Found offset (a :: bs) stop found := by
  rcases found with e | _ | ⟨o, hd⟩
  · exact Nat.lt_of_succ_lt h
  · have h : stop = offset + 1 + bs.length := h
    rw [Found, h, length_cons]
    omega
  · obtain ⟨hle, hstop, hagain⟩ := h
    refine ⟨by omega, hstop, ?_⟩
    rwa [show o - offset = (o - (offset + 1)) + 1 by omega, drop_succ_cons]

theorem headerStop_found (hfound : headerFrom offset bs = found) :
    headerStop offset bs ≤ offset + bs.length ∧ Found offset bs (headerStop offset bs) found := by
  subst hfound
  fun_induction headerFrom offset bs with
  | case1 offset a b c d rest h' hword =>
    rw [headerStop, hword]
    refine ⟨by simp, le_rfl, rfl, ?_⟩
    rw [Nat.sub_self, drop_zero, headerFrom, hword]
  | case2 offset a b c d rest w hword ih =>
    rw [headerStop, hword]
    refine ⟨ih.1.trans ?_, ih.2.earlier a⟩
    simp only [length_cons]
    omega
  | case3 offset a b c d rest e hother hword =>
    rw [headerStop, hword]
    cases e with
    | invalidHeader w => exact absurd rfl (hother w)
    | _ => exact ⟨by simp, Nat.lt_add_of_pos_right (by decide)⟩
  | case4 bs offset hshort =>
    have hstop : headerStop offset bs = offset + bs.length := by
      unfold headerStop
      split
      · exact absurd rfl (hshort _ _ _ _ _)
      · rfl
    exact ⟨hstop.le, hstop⟩

/-! ## Frames -/

def Frame.stop (f : Frame) : Nat := f.offset + 4 + f.body.size

def frameAt (data : List UInt8) (offset : Nat) (h : Header) : Except AudioError Frame :=
  if Header.maxFrameSize < h.frameSize then .error (.frameTooLarge h.frameSize)
  else if ((data.drop (offset + 4)).take (h.frameSize - 4)).length < h.frameSize - 4 then .error .truncated
  else .ok ⟨offset, h, ((data.drop (offset + 4)).take (h.frameSize - 4)).toArray⟩

/-- The first frame from a position on. -/
def nextFrame (data : List UInt8) (pos : Nat) : Except AudioError (Option Frame) :=
  match headerFrom pos (data.drop pos) with
  | .error e => .error e
  | .ok none => .ok none
  | .ok (some (o, h)) => (frameAt data o h).map some

def frameStop (data : List UInt8) (offset : Nat) (h : Header) : Nat :=
  if Header.maxFrameSize < h.frameSize then offset + 4
  else offset + 4 + ((data.drop (offset + 4)).take (h.frameSize - 4)).length

/-- Where a reader is when it has looked for a frame from a position on. -/
def nextStop (data : List UInt8) (pos : Nat) : Nat :=
  match headerFrom pos (data.drop pos) with
  | .ok (some (o, h)) => frameStop data o h
  | _ => headerStop pos (data.drop pos)

theorem offset_frameAt (hf : frameAt data offset h = .ok f) : f.offset = offset := by
  unfold frameAt at hf
  split at hf
  · cases hf
  · split at hf
    · cases hf
    · exact ok.inj hf ▸ rfl

theorem frameStop_eq (hf : frameAt data offset h = .ok f) : frameStop data offset h = f.stop := by
  unfold frameAt at hf
  unfold frameStop
  split at hf
  · cases hf
  · next hsize =>
    rw [if_neg hsize]
    split at hf
    · cases hf
    · exact ok.inj hf ▸ rfl

theorem nextStop_of_some (h : nextFrame data pos = .ok (some f)) : nextStop data pos = f.stop := by
  unfold nextFrame at h
  unfold nextStop
  split at h
  · cases h
  · cases h
  · next o hd hheader =>
    rw [hheader]
    dsimp only
    cases hframe : frameAt data o hd with
    | error e => rw [hframe] at h; cases h
    | ok g =>
      rw [hframe] at h
      obtain rfl : g = f := some.inj (ok.inj h)
      exact frameStop_eq hframe

theorem headerFrom_of_none (h : nextFrame data pos = .ok none) : headerFrom pos (data.drop pos) = .ok none := by
  unfold nextFrame at h
  split at h
  · cases h
  · next hnone => exact hnone
  · next o hd hheader => cases hframe : frameAt data o hd <;> rw [hframe] at h <;> cases h

theorem nextStop_of_none (h : nextFrame data pos = .ok none) : data.length ≤ nextStop data pos := by
  have hheader := headerFrom_of_none h
  have hstop : headerStop pos _ = pos + _ := (headerStop_found hheader).2
  rw [length_drop] at hstop
  rw [nextStop, hheader]
  dsimp only
  omega

/-- A reader that found something is beyond where it was. -/
theorem lt_nextStop (h : nextFrame data pos ≠ .ok none) : pos < nextStop data pos ∧ pos < data.length := by
  have hsome : headerFrom pos (data.drop pos) ≠ .ok none := by
    intro hnone
    rw [nextFrame, hnone] at h
    exact h rfl
  have hlt : pos < headerStop pos (data.drop pos) ∧ pos < nextStop data pos := by
    rw [nextStop]
    rcases hheader : headerFrom pos (data.drop pos) with e | _ | ⟨o, hd⟩
    · have hlt := (headerStop_found hheader).2
      exact ⟨hlt, hlt⟩
    · exact absurd hheader hsome
    · obtain ⟨hle, hstop, -⟩ := (headerStop_found hheader).2
      dsimp only
      unfold frameStop
      split <;> omega
  have hle : headerStop pos (data.drop pos) ≤ pos + (data.drop pos).length := (headerStop_found rfl).1
  rw [length_drop] at hle
  exact ⟨hlt.2, by omega⟩

theorem nextFrame_end (h : data.length ≤ pos) : nextFrame data pos = .ok none := by
  rw [nextFrame, drop_eq_nil_of_le h, headerFrom_short (by simp)]

theorem nextFrame_again (h : nextFrame data pos = .ok (some f)) : nextFrame data f.offset = .ok (some f) := by
  have hfound := h
  unfold nextFrame at hfound
  split at hfound
  · cases hfound
  · cases hfound
  · next o hd hheader =>
    obtain ⟨hle, -, hagain⟩ := (headerStop_found hheader).2
    rw [drop_drop, show pos + (o - pos) = o by omega] at hagain
    cases hframe : frameAt data o hd with
    | error e => rw [hframe] at hfound; cases hfound
    | ok g =>
      rw [hframe] at hfound
      obtain rfl : g = f := some.inj (ok.inj hfound)
      rw [nextFrame, offset_frameAt hframe, hagain]
      dsimp only
      rw [hframe]
      rfl

section

variable {σ : Type} [ByteSource σ] {data : List UInt8} {At : σ → Nat → Prop} {Fault : SourceError → Prop}

/-- Skipping byte by byte finds the first header, unless the source fails. -/
theorem Delivers.sync (h : Delivers data At Fault) (hr : Placed At r (offset + 4))
    (hdata : data.drop offset = a :: b :: c :: d :: rest) (hword : word = FrameReader.wordOf [a, b, c, d]) :
    Tells At Fault (r.sync offset word) (headerFrom offset (data.drop offset))
      (Placed At · (headerStop offset (data.drop offset))) := by
  have hdrop : ∀ offset {a b c d : UInt8} {rest : List UInt8}, data.drop offset = a :: b :: c :: d :: rest →
      data.drop (offset + 4) = rest := by
    intro offset a b c d rest hdata
    rw [← drop_drop, hdata]
    rfl
  fun_induction FrameReader.sync r offset word generalizing a b c d rest with
  | case1 r offset word hd hof =>
    subst hword
    rw [hdata, headerFrom, headerStop, hof]
    exact .inr ⟨rfl, hr⟩
  | case2 r offset word w hof x xs r' htake hlt ih =>
    obtain ⟨hx, hr'⟩ := h.of_take hr htake
    rw [hx, hdrop offset hdata] at hr'
    rw [hdrop offset hdata] at hx
    cases rest with
    | nil => cases hx
    | cons y rest =>
      obtain ⟨rfl, -⟩ := cons.inj hx
      have hnext : data.drop (offset + 1) = b :: c :: d :: x :: rest := by rw [← drop_drop, hdata]; rfl
      have hfrom : headerFrom offset (data.drop offset) = headerFrom (offset + 1) (data.drop (offset + 1)) := by
        rw [hdata, headerFrom, ← hword, hof, hnext]
      have hstop : headerStop offset (data.drop offset) = headerStop (offset + 1) (data.drop (offset + 1)) := by
        rw [hdata, headerStop, ← hword, hof, hnext]
      rw [hfrom, hstop]
      exact ih hr' hnext (by rw [hword, FrameReader.shift_wordOf])
  | case3 r offset word w hof r' htake =>
    obtain ⟨hx, hr'⟩ := h.of_take hr htake
    rw [hdrop offset hdata] at hx
    cases rest with
    | cons y rest => cases hx
    | nil =>
      have hfrom : headerFrom offset (data.drop offset) = .ok none := by
        rw [hdata, headerFrom, ← hword, hof]
        exact headerFrom_short (by simp)
      have hstop : headerStop offset (data.drop offset) = offset + (data.drop offset).length := (headerStop_found hfrom).2
      rw [hfrom, hstop, hdata]
      exact .inr ⟨rfl, hr'⟩
  | case4 r offset word w hof e r' htake =>
    obtain ⟨hfault, q, hat⟩ := h.of_take hr htake
    exact .inl ⟨e, q, rfl, hfault, hat⟩
  | case5 r offset word e hother hof =>
    have hfrom : headerFrom offset (data.drop offset) = .error e := by
      rw [hdata, headerFrom, ← hword, hof]
      cases e with
      | invalidHeader w => exact absurd rfl (hother w)
      | _ => rfl
    have hstop : headerStop offset (data.drop offset) = offset + 4 := by
      rw [hdata, headerStop, ← hword, hof]
      cases e with
      | invalidHeader w => exact absurd rfl (hother w)
      | _ => rfl
    rw [hfrom, hstop]
    exact .inr ⟨rfl, hr⟩

theorem Delivers.readBody (h : Delivers data At Fault) (hr : Placed At r (offset + 4)) (hd : Header) :
    Tells At Fault (r.readBody offset hd) (frameAt data offset hd) (Placed At · (frameStop data offset hd)) := by
  unfold FrameReader.readBody frameAt frameStop
  split
  · exact .inr ⟨rfl, hr⟩
  · split
    · next htake =>
      obtain ⟨rfl, hr'⟩ := h.of_take hr htake
      split <;> exact .inr ⟨rfl, hr'⟩
    · next e r' htake =>
      obtain ⟨hfault, q, hat⟩ := h.of_take hr htake
      exact .inl ⟨e, q, rfl, hfault, hat⟩

/-- **A reader finds what is in the bytes**, unless the source fails, and where it is then follows from them too. -/
theorem Delivers.next? (h : Delivers data At Fault) (hr : Placed At r pos) :
    Tells At Fault r.next? (nextFrame data pos) (Placed At · (nextStop data pos)) := by
  unfold FrameReader.next?
  split
  · next e r₁ htake =>
    obtain ⟨hfault, q, hat⟩ := h.of_take hr htake
    exact .inl ⟨e, q, rfl, hfault, hat⟩
  next r₁ htake =>
  obtain ⟨rfl, hr₁⟩ := h.of_take hr htake
  split
  · next hshort =>
    have hlength : (data.drop pos).length < 4 := by
      simp only [length_take] at hshort
      omega
    rw [nextFrame, nextStop, headerFrom_short hlength, headerStop_short hlength, ← take_of_length_le hlength.le]
    exact .inr ⟨rfl, hr₁⟩
  next hshort =>
  obtain ⟨a, b, c, d, rest, hdata⟩ : ∃ a b c d rest, data.drop pos = a :: b :: c :: d :: rest := by
    revert hshort
    rcases data.drop pos with _ | ⟨a, _ | ⟨b, _ | ⟨c, _ | ⟨d, rest⟩⟩⟩⟩
    case cons.cons.cons.cons => exact fun _ => ⟨a, b, c, d, rest, rfl⟩
    all_goals simp
  rw [hdata] at hr₁ ⊢
  have hword : FrameReader.wordOf ((a :: b :: c :: d :: rest).take 4) = FrameReader.wordOf [a, b, c, d] := rfl
  rw [show r₁.pos - 4 = pos by rw [hr₁.pos]; exact Nat.add_sub_cancel pos 4]
  have hsync := h.sync hr₁ hdata hword
  unfold nextFrame nextStop
  split
  · next e r₂ hrun =>
    rw [hrun] at hsync
    rcases hsync with ⟨e, q, he, hfailed⟩ | ⟨hheader, hr₂⟩
    · cases he
      exact .inl ⟨e, q, rfl, hfailed⟩
    · rw [← hheader]
      exact .inr ⟨rfl, hr₂⟩
  · next r₂ hrun =>
    obtain ⟨hheader, hr₂⟩ := hsync.ok hrun
    rw [hheader]
    exact .inr ⟨rfl, hr₂⟩
  · next o hd r₂ hrun =>
    obtain ⟨hheader, hr₂⟩ := hsync.ok hrun
    rw [(headerStop_found hheader).2.2.1] at hr₂
    rw [hheader]
    have hbody := h.readBody hr₂ hd
    dsimp only
    split
    · next hread =>
      obtain ⟨hframe, hr₃⟩ := hbody.ok hread
      rw [hframe]
      exact .inr ⟨rfl, hr₃⟩
    · next hread =>
      rw [hread] at hbody
      rcases hbody with ⟨e, q, he, hfailed⟩ | ⟨hframe, hr₃⟩
      · cases he
        exact .inl ⟨e, q, rfl, hfailed⟩
      · rw [← hframe]
        exact .inr ⟨rfl, hr₃⟩

end

/-! ## Whole streams -/

/-- The frames of a stream from a position on, up to its end. -/
inductive Frames (data : List UInt8) : Nat → List Frame → Prop
  | done {pos : Nat} : nextFrame data pos = .ok none → Frames data pos []
  | next {pos : Nat} {f : Frame} {fs : List Frame} :
    nextFrame data pos = .ok (some f) → Frames data f.stop fs → Frames data pos (f :: fs)

section

variable {data : List UInt8} {pos : Nat} {f : Frame} {fs gs : List Frame}

theorem Frames.again (h : Frames data pos (f :: fs)) : Frames data f.offset (f :: fs) := by
  cases h with
  | next hf hfs => exact .next (nextFrame_again hf) hfs

theorem Frames.from_offset (h : Frames data pos (gs ++ f :: fs)) : Frames data f.offset (f :: fs) := by
  induction gs generalizing pos with
  | nil => exact h.again
  | cons g gs ih =>
    cases h with
    | next _ hrest => exact ih hrest

theorem Frames.unique (h : Frames data pos fs) (h' : Frames data pos gs) : fs = gs := by
  induction h generalizing gs with
  | done hnone =>
    cases h' with
    | done => rfl
    | next hf _ => rw [hnone] at hf; cases hf
  | next hf _ ih =>
    cases h' with
    | done hnone => rw [hnone] at hf; cases hf
    | next hg hgs =>
      obtain rfl := some.inj (ok.inj (hf.symm.trans hg))
      rw [ih hgs]

end

section

variable {σ : Type} [ByteSource σ] {data : List UInt8} {At : σ → Nat → Prop} {Fault : SourceError → Prop}

theorem Delivers.frames_of_scan (h : Delivers data At Fault) (hr : Placed At r pos)
    (hscan : Decoder.scan r found = (.ok offsets, r')) :
    ∃ fs pos', Frames data pos fs ∧ offsets = found ++ (fs.map Frame.offset).toArray ∧ Placed At r' pos' := by
  fun_induction Decoder.scan r found generalizing pos with
  | case1 => exact absurd hscan (by simp)
  | case2 r found t hnext =>
    obtain ⟨hnone, hq⟩ := (h.next? hr).ok hnext
    obtain ⟨hfound, rfl⟩ := mk.inj hscan
    refine ⟨[], _, .done hnone, ?_, hq⟩
    simpa using (ok.inj hfound).symm
  | case3 r found f t hnext hlt ih =>
    obtain ⟨hsome, hq⟩ := (h.next? hr).ok hnext
    rw [nextStop_of_some hsome] at hq
    obtain ⟨fs, q', hfs, rfl, hq'⟩ := ih hq hscan
    refine ⟨f :: fs, q', .next hsome hfs, ?_, hq'⟩
    simp

end

end GameMedia.Audio
