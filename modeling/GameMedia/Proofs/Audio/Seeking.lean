import GameMedia.Proofs.Audio.Positions

/-!
# Seeking and decoding from the start

After a seek the decoder begins with the frame before the one it went to, and has nothing of what earlier frames left.
If that frame has its main data itself, and later frames look no further back than to it and play no other channels, the
sound is the same as in a decode from the start.
-/

namespace GameMedia.Audio

open List

/-! ## Frames that a seek reaches -/

/-- What a seek into the frame `k` needs to be true to the stream. For the first frame that is nothing. Otherwise the
frame before it has its main data itself, and later frames find theirs from there on and play no further channels. -/
def Reached (fs : List Frame) (k : Nat) : Prop :=
  k = 0 ∨ ∃ g, fs[k - 1]? = some g ∧ g.side.mainBegin = 0 ∧ ∀ j f, k ≤ j → fs[j]? = some f →
    f.side.mainBegin ≤ (((fs.take j).drop (k - 1)).map (·.fresh.size)).sum ∧ f.header.channels ≤ g.header.channels

namespace FrameDecoder

theorem supplied_of_sums (h : ∀ j f, fs[j]? = some f → f.side.mainBegin ≤ m + ((fs.take j).map (·.fresh.size)).sum) :
    Supplied m fs := by
  induction fs generalizing m with
  | nil => trivial
  | cons f fs ih =>
    refine ⟨by simpa using h 0 f rfl, ih fun j g hg => ?_⟩
    have := h (j + 1) g (by simpa using hg)
    rw [take_succ_cons, map_cons, sum_cons] at this
    omega

/-- **A decoder that begins with a frame that has its main data itself goes on as one that began before it.** -/
theorem sound_of_clean (hclean : g.side.mainBegin = 0) (hsupplied : Supplied g.fresh.size rest)
    (hchannels : ∀ f ∈ rest, f.header.channels ≤ g.header.channels) :
    (({} : FrameDecoder).after [g]).sound rest = (({} : FrameDecoder).after (first ++ [g])).sound rest := by
  rw [after_append, after_cons, after_cons]
  refine (agrees_of_clean (Reservoir.within_empty _) hclean).sound ?_ hsupplied hchannels
  rw [reservoir_decode, Reservoir.size_push]
  exact min_le_min_right _ (Nat.le_add_left _ _)

end FrameDecoder

/-- What a seek into a later frame needs, said of the frame it begins with and those behind it. -/
theorem Reached.of_append (h : Reached (first ++ g :: rest) (first.length + 1)) :
    g.side.mainBegin = 0 ∧ ∀ j f, rest[j]? = some f →
      f.side.mainBegin ≤ g.fresh.size + ((rest.take j).map (·.fresh.size)).sum ∧
        f.header.channels ≤ g.header.channels := by
  obtain hzero | ⟨g', hg', hclean, hlater⟩ := h
  · exact absurd hzero (Nat.succ_ne_zero _)
  · obtain rfl : g = g' := by simpa using hg'
    refine ⟨hclean, fun j f hf => ?_⟩
    have hindex : (first ++ g :: rest)[first.length + (j + 1)]? = some f := by
      rw [List.getElem?_append_right (Nat.le_add_right _ _), Nat.add_sub_cancel_left, List.getElem?_cons_succ, hf]
    have hfrom : ((first ++ g :: rest).take (first.length + (j + 1))).drop (first.length + 1 - 1) =
        g :: rest.take j := by
      rw [Nat.add_sub_cancel, take_length_add_append, drop_left, take_succ_cons]
    have hj := hlater _ f (by omega) hindex
    rwa [hfrom, map_cons, sum_cons] at hj

theorem Reached.sound_eq (h : Reached fs (first.length + past.length)) (hfs : fs = first ++ past ++ f :: rest)
    (hpast : past.length = min 1 (first.length + past.length)) :
    (({} : FrameDecoder).after past).sound (f :: rest) =
      (({} : FrameDecoder).after (first ++ past)).sound (f :: rest) := by
  cases past with
  | nil =>
    rw [length_nil, Nat.add_zero] at hpast
    obtain rfl : first = [] := length_eq_zero_iff.mp (by omega)
    rfl
  | cons g past =>
    rw [length_cons] at hpast
    obtain rfl : past = [] := length_eq_zero_iff.mp (by omega)
    obtain rfl : fs = first ++ g :: f :: rest := by rw [hfs, append_assoc]; rfl
    obtain ⟨hclean, hlater⟩ := h.of_append
    refine FrameDecoder.sound_of_clean hclean ?_ fun f' hf' => ?_
    · exact FrameDecoder.supplied_of_sums fun j f' hf' => (hlater j f' hf').1
    · obtain ⟨j, hj⟩ := List.getElem?_of_mem hf'
      exact (hlater j f' hj).2

section

variable {σ : Type} [ByteSource σ] {data : List UInt8} {fs first past rest : List Frame} {f : Frame} {d : Decoder σ}
  {bytes : List UInt8}

omit [ByteSource σ] in
/-- What is left is the sound from the latest frame on, without what was read of it. -/
theorem Playing.left_eq (hd : Playing data At first past f rest d) :
    d.pcm.toList.drop d.cursor ++ d.state.sound rest =
      ((({} : FrameDecoder).after past).sound (f :: rest)).drop d.cursor := by
  rw [FrameDecoder.sound_cons hd.pcm, ← hd.state, drop_append_of_le_length]
  rw [Array.length_toList]
  exact hd.cursor

omit [ByteSource σ] in
/-- A decoder that did not seek has what is left of the sound of the stream. -/
theorem OnTrack.left_eq (hd : OnTrack data At fs [] d bytes) :
    bytes = (({} : FrameDecoder).sound fs).drop d.pos := by
  cases hd with
  | ended hd => rw [hd.pos, ← FrameDecoder.length_sound {} fs, drop_length]
  | playing hfs hd =>
    rw [nil_append] at hfs
    rw [hd.left_eq, hd.pos, length_nil, Nat.zero_add, hfs, FrameDecoder.drop_sound]

theorem OnTrack.reads (h : Serves data At) (hd : OnTrack data At fs first d bytes) (sizes : List Nat) : ∃ bytes',
    OnTrack data At fs first (d.calls (sizes.map .read)) bytes' ∧ (d.calls (sizes.map .read)).offsets = d.offsets := by
  induction sizes generalizing d bytes with
  | nil => exact ⟨bytes, hd, rfl⟩
  | cons n sizes ih =>
    obtain ⟨out, d', hread, bytes', hd', hoffsets, -⟩ := (hd.read h n).exists
    have hcall : d.call (.read n) = d' := by rw [Decoder.call, hread]
    obtain ⟨bytes'', hd'', hoffsets'⟩ := ih hd'
    rw [map_cons, Decoder.calls, foldl_cons, hcall]
    exact ⟨bytes'', hd'', hoffsets'.trans hoffsets⟩

omit [ByteSource σ] in
/-- After a seek that reaches its frame, what is left is what is left of the sound of the stream. -/
theorem Playing.left_of_reached (hd : Playing data At first past f rest d)
    (hfs : fs = first ++ past ++ f :: rest) (hpast : past.length = min 1 (first.length + past.length))
    (hreached : Reached fs (first.length + past.length)) :
    d.pcm.toList.drop d.cursor ++ d.state.sound rest = (({} : FrameDecoder).sound fs).drop d.pos := by
  rw [hd.left_eq, hreached.sound_eq hfs hpast, hd.pos, hfs, ← length_append, FrameDecoder.drop_sound]

/-- **A seek that reaches its frame is true to the stream**, if there were only reads before it. -/
theorem OnTrack.seek_start (h : Serves data At) (hframes : Frames data 0 fs)
    (hoffsets : d.offsets = some (fs.map Frame.offset).toArray) (hd : OnTrack data At fs [] d bytes)
    (hp : p < bytesPerFrame * fs.length) (hreached : Reached fs (p / bytesPerFrame)) :
    ∃ first d', d.seek (.start p) = (.ok p, d') ∧
      OnTrack data At fs first d' ((({} : FrameDecoder).sound fs).drop p) := by
  rw [Decoder.seek, Decoder.target]
  dsimp only
  by_cases hpos : p = d.pos
  · -- a seek to the position changes nothing
    rw [if_pos hpos, hpos, ← hd.left_eq]
    exact ⟨[], d, rfl, hd⟩
  · obtain ⟨q, hsource⟩ := hd.source
    rw [Nat.mul_comm, ← Nat.div_lt_iff_lt_mul (by decide)] at hp
    obtain ⟨_, d', hseek, -, ⟨first, past, f, rest, hfs, hindex, hpast, rfl, rfl, -, hplaying⟩ | ⟨hle, -⟩⟩ :=
      (h.seekable.seekTo hsource hframes hoffsets p).exists
    · rw [if_neg hpos, hseek]
      rw [hindex] at hpast hreached
      rw [← hplaying.left_of_reached hfs hpast hreached]
      exact ⟨first, d', rfl, .playing hfs hplaying⟩
    · omega

end

/-! ## Fidelity -/

end GameMedia.Audio
