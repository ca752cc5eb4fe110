import GameMedia.Proofs.Audio.Chunking
import GameMedia.Proofs.Audio.Seeking

/-!
# Seeking after failures

A source may fail at any read and at any seek, and a frame may not decode. A decoder goes on after that, but its position
may no longer say where it is. A seek to another position makes up for everything: if it succeeds, the decoder is in the
frame of that position, whatever failed before. A seek to the position that the decoder has already does nothing, so it
relies on what was before it.
-/

namespace GameMedia.Audio

open List ByteSource

variable {σ : Type} [ByteSource σ] {data : List UInt8} {At : σ → Nat → Prop} {Fault : SourceError → Prop}
  {fs first past rest : List Frame} {f : Frame} {d d' : Decoder σ} {bytes : List UInt8} {r r' : FrameReader σ}
  {pos p : Nat}

/-! ## Anywhere in the stream -/

/-- A source that is somewhere in the stream stays so, whatever is read and whether it fails or not. -/
theorem Delivers.at_take (h : Delivers data At Fault) (hr : ∃ q, At r.source q)
    (htake : r.take n = (result, r')) : ∃ q, At r'.source q := by
  obtain ⟨pos, hpos⟩ := hr
  have hfilled := h.fill hpos n
  unfold FrameReader.take at htake
  split at htake
  · next hfill =>
    cases htake
    rw [hfill] at hfilled
    exact ⟨_, hfilled.2⟩
  · next hfill =>
    cases htake
    rw [hfill] at hfilled
    exact hfilled.2

theorem Delivers.at_sync (h : Delivers data At Fault) (hr : ∃ q, At r.source q) (offset : Nat) (word : UInt32) :
    ∃ q, At (r.sync offset word).2.source q := by
  fun_induction FrameReader.sync r offset word with
  | case1 | case5 => exact hr
  | case2 _ _ _ _ _ _ _ _ htake _ ih => exact ih (h.at_take hr htake)
  | case3 _ _ _ _ _ _ htake | case4 _ _ _ _ _ _ _ htake => exact h.at_take hr htake

theorem Delivers.at_readBody (h : Delivers data At Fault) (hr : ∃ q, At r.source q) (offset : Nat) (hd : Header) :
    ∃ q, At (r.readBody offset hd).2.source q := by
  unfold FrameReader.readBody
  split
  · exact hr
  · split
    · next htake => split <;> exact h.at_take hr htake
    · next htake => exact h.at_take hr htake

theorem Delivers.at_next? (h : Delivers data At Fault) (hr : ∃ q, At r.source q) : ∃ q, At r.next?.2.source q := by
  unfold FrameReader.next?
  split
  · next htake => exact h.at_take hr htake
  next bs r₁ htake =>
  have hat := h.at_take hr htake
  split
  · exact hat
  have hat₂ := h.at_sync hat (r₁.pos - 4) (FrameReader.wordOf bs)
  split
  · next hsync => rwa [hsync] at hat₂
  · next hsync => rwa [hsync] at hat₂
  · next offset hd r₂ hsync =>
    rw [hsync] at hat₂
    have hat₃ := h.at_readBody hat₂ offset hd
    split
    · next hbody => rwa [hbody] at hat₃
    · next hbody => rwa [hbody] at hat₃

/-- The decoder knows where the frames of the stream are, and its source is somewhere in it. -/
structure Adrift (data : List UInt8) (At : σ → Nat → Prop) (fs : List Frame) (d : Decoder σ) : Prop where
  offsets : d.offsets = some (fs.map Frame.offset).toArray
  source : ∃ q, At d.frames.source q

omit [ByteSource σ] in
theorem Underway.adrift (hd : Underway data At fs d) : Adrift data At fs d := by
  obtain ⟨hoffsets, first, bytes, htrack⟩ := hd
  exact ⟨hoffsets, htrack.source⟩

theorem advance_snd (d : Decoder σ) :
    d.advance.2.frames = d.frames.next?.2 ∧ d.advance.2.offsets = d.offsets := by
  rcases hnext : d.frames.next? with ⟨e | found, r⟩
  · rw [advance_error hnext]
    exact ⟨rfl, rfl⟩
  · cases found with
    | none =>
      rw [advance_none hnext]
      exact ⟨rfl, rfl⟩
    | some f =>
      obtain ⟨pcm, -, hadvance⟩ := advance_some hnext
      rw [hadvance]
      exact ⟨rfl, rfl⟩

theorem Adrift.advance (h : Delivers data At Fault) (hd : Adrift data At fs d) : Adrift data At fs d.advance.2 := by
  obtain ⟨hframes, hoffsets⟩ := advance_snd d
  refine ⟨hoffsets.trans hd.offsets, ?_⟩
  rw [hframes]
  exact h.at_next? hd.source

theorem Adrift.advanceBy (h : Delivers data At Fault) (hd : Adrift data At fs d) (n : Nat) :
    Adrift data At fs (d.advanceBy n).2 := by
  induction n generalizing d with
  | zero => exact hd
  | succ n ih =>
    have hadvance := hd.advance h
    unfold Decoder.advanceBy
    split
    · next hd₁ => rwa [hd₁] at hadvance
    · next hd₁ =>
      rw [hd₁] at hadvance
      exact ih hadvance

theorem Adrift.read (h : Delivers data At Fault) (hd : Adrift data At fs d) (n : Nat) :
    Adrift data At fs (d.read n).2 := by
  have hadvance := hd.advance h
  unfold Decoder.read
  split
  · exact hd
  · split
    · split
      · next hd₁ => rwa [hd₁] at hadvance
      · next hd₁ => rwa [hd₁] at hadvance
      · next hd₁ =>
        rw [hd₁] at hadvance
        exact ⟨hadvance.offsets, hadvance.source⟩
    · exact ⟨hd.offsets, hd.source⟩

theorem Adrift.seekTo (h : Seekable data At Fault) (hd : Adrift data At fs d) (pos : Nat) :
    Adrift data At fs (d.seekTo pos).2 := by
  obtain ⟨q, hsource⟩ := hd.source
  rw [seekTo_eq hd.offsets]
  split
  · unfold Decoder.seekInto
    rcases h.seekStart ((fs.map Frame.offset).toArray.getD (pos / bytesPerFrame - 1) 0) hsource with
      ⟨e, s', q', hs, -, hat⟩ | ⟨s', hs, hat⟩
    · rw [hs]
      exact ⟨hd.offsets, q', hat⟩
    · rw [hs]
      dsimp only
      have hmoved : Adrift data At fs { d with state := {}, frames := ⟨s', (fs.map Frame.offset).toArray.getD
        (pos / bytesPerFrame - 1) 0⟩ } := ⟨hd.offsets, _, hat⟩
      have hlast := hmoved.advanceBy h.toDelivers (if 0 < pos / bytesPerFrame then 2 else 1)
      split
      · next hadvance => rw [hadvance] at hlast; exact hlast
      · next hadvance => rw [hadvance] at hlast; exact ⟨hlast.offsets, hlast.source⟩
  · unfold Decoder.seekPastEnd
    rcases h.seekEnd hsource with ⟨e, s', q', hs, -, hat⟩ | ⟨s', hs, hat⟩
    · rw [hs]
      exact ⟨hd.offsets, q', hat⟩
    · rw [hs]
      exact ⟨hd.offsets, _, hat⟩

theorem Adrift.call (h : Seekable data At Fault) (hd : Adrift data At fs d) (c : Call) :
    Adrift data At fs (d.call c) := by
  cases c with
  | read n => exact hd.read h.toDelivers n
  | seek place =>
    change Adrift data At fs (d.seek place).2
    unfold Decoder.seek
    split
    · exact hd
    · split
      · exact hd
      · exact hd.seekTo h _

/-! ## Where the position can be trusted -/

/-- Whether the decoder is where its position says after a call, if `sure` says so of the decoder before it. A call that
fails on its way leaves this open, and a seek to another position settles it. -/
def Decoder.sureAfter (d : Decoder σ) (sure : Bool) : Call → Bool
  | .read n => sure && (d.read n).1.isOk
  | .seek place => match d.target place with
    | .error _ => sure
    | .ok pos => if pos = d.pos then sure else (d.seek place).1.isOk

def Decoder.sure (d : Decoder σ) (sure : Bool) : List Call → Bool
  | [] => sure
  | c :: cs => (d.call c).sure (d.sureAfter sure c) cs

theorem of_isOk {ε α : Type} {x : Except ε α} (h : x.isOk = true) : ∃ a, x = .ok a := by
  cases x with
  | error e => cases h
  | ok a => exact ⟨a, rfl⟩

theorem Adrift.underway_of_seekTo (h : Seekable data At Fault) (hframes : Frames data 0 fs) (hd : Adrift data At fs d)
    (hseek : d.seekTo pos = (.ok p, d')) : Underway data At fs d' := by
  obtain ⟨q, hsource⟩ := hd.source
  obtain ⟨hoffsets, ⟨first, past, f, rest, hfs, -, -, -, -, -, hplaying⟩ | ⟨-, -, hended⟩⟩ :=
    (h.seekTo hsource hframes hd.offsets pos).ok hseek
  · exact ⟨hoffsets.trans hd.offsets, first, _, .playing hfs hplaying⟩
  · exact ⟨hoffsets.trans hd.offsets, [], [], .ended hended⟩

/-- A call keeps the decoder on its track, or puts it there, as far as it is sure of it. -/
theorem Adrift.sureAfter (h : Seekable data At Fault) (hframes : Frames data 0 fs) (hd : Adrift data At fs d)
    (hsure : sure = true → Underway data At fs d) (c : Call) (hafter : d.sureAfter sure c = true) :
    Underway data At fs (d.call c) := by
  cases c with
  | read n =>
    rw [Decoder.sureAfter, Bool.and_eq_true] at hafter
    obtain ⟨hoffsets, first, bytes, htrack⟩ := hsure hafter.1
    obtain ⟨out, hout⟩ := of_isOk hafter.2
    obtain ⟨bytes', htrack', hoffsets', -⟩ := (htrack.read h.toDelivers n).ok (Prod.ext hout rfl)
    exact ⟨hoffsets'.trans hoffsets, first, bytes', htrack'⟩
  | seek place =>
    rw [Decoder.sureAfter] at hafter
    rw [Decoder.call, Decoder.seek]
    cases htarget : d.target place with
    | error e =>
      rw [htarget] at hafter
      exact hsure hafter
    | ok pos =>
      rw [htarget] at hafter
      dsimp only at hafter ⊢
      split at hafter
      · next hsame =>
        rw [if_pos hsame]
        exact hsure hafter
      · next hother =>
        rw [if_neg hother]
        obtain ⟨p, hp⟩ := of_isOk hafter
        rw [Decoder.seek, htarget] at hp
        dsimp only at hp
        rw [if_neg hother] at hp
        exact hd.underway_of_seekTo h hframes (Prod.ext hp rfl)

/-- **After any calls the source is in the stream, and the decoder is on its track if it is sure of it.** -/
theorem Adrift.calls (h : Seekable data At Fault) (hframes : Frames data 0 fs) (hd : Adrift data At fs d)
    (hsure : sure = true → Underway data At fs d) (cs : List Call) :
    Adrift data At fs (d.calls cs) ∧ (d.sure sure cs = true → Underway data At fs (d.calls cs)) := by
  induction cs generalizing d sure with
  | nil => exact ⟨hd, hsure⟩
  | cons c cs ih => exact ih (hd.call h c) (hd.sureAfter h hframes hsure c)

/-! ## What a seek promises -/

/-- The sound from a position on, for a decoder that began with the frames `past` right before it. -/
def leftAt (fs past : List Frame) (p : Nat) : List UInt8 :=
  ((({} : FrameDecoder).after past).sound (fs.drop (p / bytesPerFrame))).drop (p % bytesPerFrame)

/-- **The decoder is at a position**: as long as reads do not fail they give the bytes of the frame there, from the place
in it that the position means, and then those of the frames behind it. They are as a decoder has them that began with
the frames `past`. -/
structure Honours (fs past : List Frame) (p : Nat) (d : Decoder σ) : Prop where
  before : past <:+ fs.take (p / bytesPerFrame)
  along : ∀ sizes bytes, d.trace sizes = bytes.map .byte → bytes <+: leftAt fs past p
  ends : ∀ sizes bytes n, n ≠ 0 → d.trace sizes = bytes.map .byte →
    ((d.calls (sizes.map .read)).read n).1 = .ok #[] → bytes = leftAt fs past p

/-- Reads that do not fail give the first of the bytes that are left. -/
theorem OnTrack.trace (h : Delivers data At Fault) {left : List UInt8} (hd : OnTrack data At fs first d left)
    (htrace : d.trace sizes = bytes.map .byte) :
    ∃ left', OnTrack data At fs first (d.calls (sizes.map .read)) left' ∧ left = bytes ++ left' := by
  induction sizes generalizing d left bytes with
  | nil =>
    obtain rfl : bytes = [] := by simpa [Decoder.trace] using htrace
    exact ⟨left, hd, rfl⟩
  | cons n sizes ih =>
    rw [Decoder.trace] at htrace
    rcases hread : d.read n with ⟨e | out, d₁⟩
    · -- a failure is no byte
      rw [hread] at htrace
      exact absurd htrace (by cases bytes <;> simp [gave])
    · obtain ⟨left₁, hd₁, -, rfl, -⟩ := (hd.read h n).ok hread
      rw [hread] at htrace
      obtain ⟨bytes₁, bytes₂, rfl, hout, htrace₂⟩ := map_eq_append_iff.mp htrace.symm
      obtain rfl : bytes₁ = out.toList := map_injective_iff.mpr (fun _ _ => Event.byte.inj) hout
      obtain ⟨left₂, hd₂, rfl⟩ := ih hd₁ htrace₂.symm
      refine ⟨left₂, ?_, (append_assoc _ _ _).symm⟩
      rw [map_cons, Decoder.calls, foldl_cons, Decoder.call, hread]
      exact hd₂

theorem OnTrack.honours_of_left (h : Delivers data At Fault) {left : List UInt8} (hd : OnTrack data At fs first d left)
    (hpast : past <:+ fs.take (p / bytesPerFrame)) (hleft : left = leftAt fs past p) : Honours fs past p d where
  before := hpast
  along := by
    intro sizes bytes htrace
    obtain ⟨left', -, hsplit⟩ := hd.trace h htrace
    rw [← hleft, hsplit]
    exact prefix_append _ _
  ends := by
    intro sizes bytes n hn htrace hread
    obtain ⟨left', hd', hsplit⟩ := hd.trace h htrace
    obtain ⟨-, -, -, -, hempty⟩ := (hd'.read h n).ok (Prod.ext hread rfl)
    rcases hempty rfl with hzero | hnil
    · exact absurd hzero hn
    · rw [← hleft, hsplit, hnil, append_nil]

omit [ByteSource σ] in
theorem Playing.leftAt_eq (hd : Playing data At first past f rest d) (hfs : fs = first ++ past ++ f :: rest)
    (hlt : d.cursor < d.pcm.size) : past <:+ fs.take (d.pos / bytesPerFrame) ∧
      d.pcm.toList.drop d.cursor ++ d.state.sound rest = leftAt fs past d.pos := by
  rw [hd.size] at hlt
  have hindex : d.pos / bytesPerFrame = (first ++ past).length := by
    rw [hd.pos, Nat.mul_add_div (by decide), Nat.div_eq_of_lt hlt, Nat.add_zero, length_append]
  have hplace : d.pos % bytesPerFrame = d.cursor := by
    rw [hd.pos, Nat.mul_add_mod, Nat.mod_eq_of_lt hlt]
  rw [leftAt, hindex, hplace, hfs, take_left, drop_left]
  exact ⟨suffix_append _ _, hd.left_eq⟩

omit [ByteSource σ] in
/-- Where all of the latest frame was read, the position is that of the next. -/
theorem Playing.leftAt_eq_next (hd : Playing data At first past f rest d) (hfs : fs = first ++ past ++ f :: rest)
    (hall : d.cursor = d.pcm.size) : past ++ [f] <:+ fs.take (d.pos / bytesPerFrame) ∧
      d.pcm.toList.drop d.cursor ++ d.state.sound rest = leftAt fs (past ++ [f]) d.pos := by
  have hpos : d.pos = bytesPerFrame * (first ++ (past ++ [f])).length := by
    rw [hd.pos, hall, hd.size, ← Nat.mul_succ]
    simp only [length_append, length_cons, length_nil]
    rfl
  have hindex : d.pos / bytesPerFrame = (first ++ (past ++ [f])).length := by
    rw [hpos, Nat.mul_div_cancel_left _ (by decide)]
  have hplace : d.pos % bytesPerFrame = 0 := by rw [hpos, Nat.mul_mod_right]
  have hsplit : fs = first ++ (past ++ [f]) ++ rest := by
    rw [hfs]
    simp
  have hstate : d.state = ({} : FrameDecoder).after (past ++ [f]) := by
    rw [hd.state, FrameDecoder.after_append, FrameDecoder.after_cons]
    rfl
  have hnone : d.pcm.toList.drop d.cursor = [] := by simp [hall]
  rw [leftAt, hindex, hplace, hsplit, take_left, drop_left, hnone, hstate]
  exact ⟨suffix_append _ _, rfl⟩

omit [ByteSource σ] in
theorem Ended.leftAt_eq (hd : Ended data At fs.length d) (past : List Frame) :
    fs.take (d.pos / bytesPerFrame) = fs ∧ leftAt fs past d.pos = [] := by
  have hindex : d.pos / bytesPerFrame = fs.length := by
    rw [hd.pos, Nat.mul_div_cancel_left _ (by decide)]
  rw [leftAt, hindex, take_length, drop_length]
  exact ⟨rfl, drop_nil⟩

/-- A decoder on its track is at its position. -/
theorem Underway.honours (h : Delivers data At Fault) (hd : Underway data At fs d) : ∃ past, Honours fs past d.pos d := by
  obtain ⟨-, first, bytes, htrack⟩ := hd
  cases htrack with
  | ended hd =>
    obtain ⟨htake, hleft⟩ := hd.leftAt_eq []
    exact ⟨[], (OnTrack.ended hd : OnTrack data At fs first d []).honours_of_left h nil_suffix hleft.symm⟩
  | @playing past rest f hfs hd =>
    rcases Nat.lt_or_eq_of_le hd.cursor with hlt | hall
    · obtain ⟨hpast, hleft⟩ := hd.leftAt_eq hfs hlt
      exact ⟨past, (OnTrack.playing hfs hd).honours_of_left h hpast hleft⟩
    · obtain ⟨hpast, hleft⟩ := hd.leftAt_eq_next hfs hall
      exact ⟨past ++ [f], (OnTrack.playing hfs hd).honours_of_left h hpast hleft⟩

/-- **After a seek that went to another position the decoder is there**, and began with the frame before. -/
theorem Adrift.honours_of_seekTo (h : Seekable data At Fault) (hframes : Frames data 0 fs) (hd : Adrift data At fs d)
    (hseek : d.seekTo pos = (.ok p, d')) : ∃ past, past.length = min 1 (p / bytesPerFrame) ∧ Honours fs past p d' := by
  obtain ⟨q, hsource⟩ := hd.source
  obtain ⟨-, ⟨first, past, f, rest, hfs, -, hpast, rfl, hpos, hcursor, hplaying⟩ | ⟨-, rfl, hended⟩⟩ :=
    (h.seekTo hsource hframes hd.offsets pos).ok hseek
  · have hlt : d'.cursor < d'.pcm.size := by
      rw [hcursor, hplaying.size]
      exact Nat.mod_lt _ (by decide)
    obtain ⟨hsuffix, hleft⟩ := hplaying.leftAt_eq hfs hlt
    rw [hpos] at hsuffix hleft
    exact ⟨past, hpast, (OnTrack.playing hfs hplaying).honours_of_left h.toDelivers hsuffix hleft⟩
  · obtain ⟨htake, hleft⟩ := hended.leftAt_eq (fs.drop (fs.length - 1))
    rw [hended.pos] at htake hleft
    refine ⟨fs.drop (fs.length - 1), ?_, ?_⟩
    · rw [Nat.mul_div_cancel_left _ (by decide), length_drop]
      omega
    · refine (OnTrack.ended hended : OnTrack data At fs [] d' []).honours_of_left h.toDelivers ?_ hleft.symm
      rw [htake]
      exact drop_suffix _ _

theorem Frames.items_eq (hframes : Frames data pos fs) : items data pos = fs.map .frame := by
  induction hframes with
  | done hnone => exact items_none hnone
  | next hsome _ ih => rw [items_some hsome, nextStop_of_some hsome, ih, map_cons]

/-- Frames add their sound to the tape, and nothing else. -/
theorem FrameDecoder.flatten_parts (s : FrameDecoder) (fs : List Frame) :
    (s.parts (fs.map .frame)).flatten = (s.sound fs).map .byte := by
  induction fs generalizing s with
  | nil => rfl
  | cons f fs ih =>
    obtain ⟨pcm, hpcm⟩ := s.exists_decode f
    rw [map_cons, parts, flatten_cons, framePart, hpcm, sound_cons hpcm, map_append, ih]

theorem Leaves.exhausts (h : Steady data At) {left : List Event} (hd : Leaves data At d left) :
    ∃ sizes, d.trace sizes = left := by
  induction hn : left.length using Nat.strong_induction_on generalizing d left with
  | h n ih =>
    obtain ⟨left', hd', hleft, hempty⟩ := hd.read h Nat.one_ne_zero
    by_cases hnil : left = []
    · exact ⟨[], hnil.symm⟩
    · -- a read gives something as long as there is something
      have hgave : gave (d.read 1).1 ≠ [] := by
        cases hresult : (d.read 1).1 with
        | error e => simp [gave]
        | ok out =>
          intro hnone
          have hout : out.toList = [] := by simpa [gave] using hnone
          rw [Array.toList_eq_nil_iff.mp hout] at hresult
          exact hnil (hempty hresult)
      have hlength := congrArg length hleft
      rw [length_append, hn] at hlength
      have hpos := length_pos_iff.mpr hgave
      obtain ⟨sizes, hsizes⟩ := ih left'.length (by omega) hd' rfl
      exact ⟨1 :: sizes, by rw [Decoder.trace, hsizes, hleft]⟩

/-- A source in memory of which one read fails: the first behind as many seeks as `fuse` says. -/
structure FusedSource where
  inner : MemorySource
  fuse : Option Nat

namespace FusedSource

/-- The failure. -/
def blown : SourceError := ⟨.other, "fuse blown"⟩

def read (s : FusedSource) (n : Nat) : ReadResult × FusedSource :=
  if s.fuse = some 0 then (.failed blown, { s with fuse := none })
  else ((ByteSource.read s.inner n).1, { s with inner := (ByteSource.read s.inner n).2 })

end FusedSource

instance : ByteSource FusedSource where
  read := FusedSource.read
  seekStart s pos := (.ok (), { inner := { s.inner with pos }, fuse := s.fuse.map (· - 1) })
  seekEnd s := (.ok s.inner.data.size, { s with inner := { s.inner with pos := s.inner.data.size } })
  left s := left s.inner
  left_read_le s n := by
    unfold FusedSource.read
    split
    · exact Nat.le_refl _
    · exact left_read_le s.inner n
  left_read_lt s n h := by
    unfold FusedSource.read at h ⊢
    split
    · next hfuse =>
      rw [if_pos hfuse] at h
      cases h
    · next hfuse =>
      rw [if_neg hfuse] at h
      exact left_read_lt s.inner n h

namespace FusedSource

/-- The source is at a position, and its fuse is as given. -/
structure Fused (data : List UInt8) (fuse : Option Nat) (s : FusedSource) (pos : Nat) : Prop where
  inner : MemorySource.Holds data s.inner pos
  fuse : s.fuse = fuse

variable {fuse : Option Nat} {s : FusedSource} {pos : Nat}

/-- Until the fuse blows, the source does not fail. -/
theorem steady (hfuse : fuse ≠ some 0) : Steady data (Fused data fuse) where
  read := by
    intro s pos n hs hn
    have hread : ByteSource.read s n = ((ByteSource.read s.inner n).1, { s with inner := (ByteSource.read s.inner n).2 }) :=
      if_neg fun hblown => hfuse (hs.fuse.symm.trans hblown)
    rcases (MemorySource.serves data).read hs.inner hn with ⟨s', hinner, hs'⟩ | ⟨bs, s', hinner, hs', hbytes⟩
    · rw [hinner] at hread
      exact .inl ⟨_, hread, hs', hs.fuse⟩
    · rw [hinner] at hread
      exact .inr (.inr ⟨bs, _, hread, ⟨hs', hs.fuse⟩, hbytes⟩)

/-- The source gives the bytes, goes to positions, and has no failure but the one. -/
theorem seekable : Seekable data (fun s pos => ∃ fuse, Fused data fuse s pos) (· = blown) where
  read := by
    rintro s pos n ⟨fuse, hs⟩ hn
    by_cases hfuse : fuse = some 0
    · exact .inr (.inl ⟨blown, _, if_pos (hs.fuse.trans hfuse), rfl, none, hs.inner, rfl⟩)
    · rcases (steady hfuse).read hs hn with ⟨s', hread, hs'⟩ | ⟨e, s', -, hfault, -⟩ | ⟨bs, s', hread, hs', hbytes⟩
      · exact .inl ⟨s', hread, fuse, hs'⟩
      · exact absurd hfault id
      · exact .inr (.inr ⟨bs, s', hread, ⟨fuse, hs'⟩, hbytes⟩)
  seekStart := by
    rintro s pos start ⟨fuse, hs⟩
    exact .inr ⟨_, rfl, _, ⟨hs.inner.data, rfl, hs.inner.fault, hs.inner.chunk⟩, rfl⟩
  seekEnd := by
    rintro s pos ⟨fuse, hs⟩
    have hsize : s.inner.data.size = data.length := by rw [← hs.inner.data, Array.length_toList]
    rw [← hsize]
    exact .inr ⟨_, rfl, fuse, ⟨hs.inner.data, rfl, hs.inner.fault, hs.inner.chunk⟩, hs.fuse⟩

end FusedSource

/-- The stream of silence, from a source of which the first read behind the third seek fails. Opening takes two. -/
def fusedQuiet : FusedSource := ⟨{ data := quietStream.toArray }, some 3⟩

/-- The decoder has all of its frame to give, and its source is at the beginning of the stream of silence. -/
@[mk_iff]
structure Stranded (d : Decoder FusedSource) : Prop where
  pos : d.pos = 0
  cursor : d.cursor = 0
  size : d.pcm.size = bytesPerFrame
  reader : d.frames.pos = 0
  data : d.frames.source.inner.data.toList = quietStream
  start : d.frames.source.inner.pos = 0
  fault : d.frames.source.inner.fault = none
  chunk : d.frames.source.inner.chunk = none
  fuse : d.frames.source.fuse = none

instance (d : Decoder FusedSource) : Decidable (Stranded d) := decidable_of_iff _ (stranded_iff d).symm

/-- A seek into its second frame fails, and leaves the source at the first. The same seek succeeds behind it. -/
theorem fusedQuiet_fails : ∃ d source', Decoder.ofScanned fusedQuiet = (.ok d, source') ∧
    (d.seek (.start bytesPerFrame)).1 = .error (.decoding (.source FusedSource.blown)) ∧
    Stranded (d.calls [.seek (.start bytesPerFrame)]) ∧
    ((d.calls [.seek (.start bytesPerFrame)]).seek (.start bytesPerFrame)).1 = .ok bytesPerFrame := by
  decide +kernel

end GameMedia.Audio
