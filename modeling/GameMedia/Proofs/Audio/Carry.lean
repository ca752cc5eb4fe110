import GameMedia.Audio.FrameDecoder
import GameMedia.Proofs.Audio.Codes

/-!
# What frames leave behind

A frame is decoded with the bytes that earlier frames left in the reservoir and with the overlap and the filterbank of
each channel. A decoder that starts in the middle of a stream lacks these. What it has in its reservoir is the end of
what it would have, so a frame has either the same main data or none. The overlap and the filterbank of a channel depend
on its last granule alone, so one frame with its own main data makes up for everything that went before it.
-/

namespace GameMedia.Audio

open List hiding Vector

/-! ## Sizes -/

theorem BitRead.length_times (item : BitRead α) (n : Nat) (r : BitReader) : (BitRead.times item n r).1.length = n := by
  induction n generalizing r with
  | zero => rfl
  | succ n ih => exact congrArg (· + 1) (ih _)

theorem Frame.mainBegin_lt (f : Frame) : f.side.mainBegin < 512 := BitReader.bitsAt_lt _ 0 9

theorem Frame.length_granules (f : Frame) : f.side.granules.length = 2 := BitRead.length_times _ 2 _

theorem length_mainData (hok : mainData h side data = .ok coded) : coded.length = 2 := by
  obtain ⟨first, -, hok⟩ := Huffman.of_bind_ok hok
  obtain ⟨second, -, hok⟩ := Huffman.of_bind_ok hok
  rw [← Except.ok.inj hok]
  rfl

theorem Synthesis.length_rounds (lines : Lines) (rs : List (Fin 18)) (bank : Filterbank) :
    (Synthesis.rounds lines rs bank).1.length = 32 * rs.length := by
  induction rs generalizing bank with
  | nil => rfl
  | cons r rs ih =>
    simp only [Synthesis.rounds, length_append, length_map, length_finRange, ih, length_cons]
    omega

theorem length_synthesize (lines : Lines) (bank : Filterbank) : (synthesize lines bank).1.length = lineCount := by
  rw [synthesize, Synthesis.length_rounds, length_finRange]
  rfl

theorem ChannelState.length_play (s : ChannelState) (g : GranuleInfo) (lines : Lines) :
    (s.play g lines).1.length = lineCount := by
  simp only [ChannelState.play, length_synthesize]

theorem Channels.length_playMono (s : Channels) (h : Header) (g : GranuleInfo) (c : CodedChannel) :
    (s.playMono h g c).1.length = lineCount := by
  simp only [Channels.playMono, length_map, ChannelState.length_play]

theorem Channels.length_playStereo (s : Channels) (h : Header) (g₀ g₁ : GranuleInfo) (c₀ c₁ : CodedChannel) :
    (s.playStereo h g₀ g₁ c₀ c₁).1.length = lineCount := by
  simp only [Channels.playStereo, length_zip, ChannelState.length_play, Nat.min_self]

theorem Channels.length_play (s : Channels) (h : Header) (gs : List GranuleInfo) (cs : CodedGranule) :
    (s.play h gs cs).1.length = lineCount := by
  unfold Channels.play
  split
  · exact Channels.length_playMono _ _ _ _
  · exact Channels.length_playStereo _ _ _ _ _ _

theorem Channels.length_playAll (s : Channels) (h : Header) (parts : List (List GranuleInfo × CodedGranule)) :
    (s.playAll h parts).1.length = lineCount * parts.length := by
  induction parts generalizing s with
  | nil => rfl
  | cons part parts ih =>
    obtain ⟨gs, cs⟩ := part
    simp only [Channels.playAll, length_append, Channels.length_play, ih, length_cons]
    rw [Nat.mul_succ, Nat.add_comm]

theorem size_soundBytes (sound : List (Int16 × Int16)) : (soundBytes sound).size = 4 * sound.length := by
  rw [soundBytes, List.size_toArray]
  induction sound with
  | nil => rfl
  | cons x sound ih =>
    rw [flatMap_cons, length_append, ih, length_cons]
    simp only [sampleBytes, length_append, length_cons, length_nil]
    omega

/-! ## Frames -/

def Frame.coded (f : Frame) (r : Reservoir) : Except AudioError (List CodedGranule) :=
  match r.data? f.side.mainBegin f.fresh with
  | some data => mainData f.header f.side data
  | none => .ok (silence f.header)

theorem Frame.exists_coded (f : Frame) (r : Reservoir) : ∃ coded, f.coded r = .ok coded := by
  unfold Frame.coded
  split
  · exact exists_mainData _ _ _
  · exact ⟨_, rfl⟩

def Channels.playFrame (s : Channels) (f : Frame) (coded : List CodedGranule) : List (Int16 × Int16) × Channels :=
  s.playAll f.header (f.side.granules.zip coded)

theorem Frame.length_coded {f : Frame} {r : Reservoir} {coded : List CodedGranule} (h : f.coded r = .ok coded) :
    coded.length = 2 := by
  unfold Frame.coded at h
  split at h
  · exact length_mainData h
  · rw [← Except.ok.inj h]
    rfl

namespace FrameDecoder

variable {s t : FrameDecoder} {f : Frame} {coded : List CodedGranule}

theorem decode_eq (s : FrameDecoder) (f : Frame) : s.decode f = match f.coded s.reservoir with
    | .error e => (.error e, { s with reservoir := s.reservoir.push f.fresh })
    | .ok coded => (.ok (soundBytes (s.channels.playFrame f coded).1),
      ⟨s.reservoir.push f.fresh, (s.channels.playFrame f coded).2⟩) :=
  rfl

theorem decode_ok (h : f.coded s.reservoir = .ok coded) :
    s.decode f = (.ok (soundBytes (s.channels.playFrame f coded).1),
      ⟨s.reservoir.push f.fresh, (s.channels.playFrame f coded).2⟩) := by
  rw [decode_eq, h]

theorem reservoir_decode (s : FrameDecoder) (f : Frame) : (s.decode f).2.reservoir = s.reservoir.push f.fresh := by
  obtain ⟨coded, h⟩ := f.exists_coded s.reservoir
  rw [decode_ok h]

/-- **A frame has `bytesPerFrame` bytes of sound.** -/
theorem size_decode {pcm : Array UInt8} (h : (s.decode f).1 = .ok pcm) : pcm.size = bytesPerFrame := by
  obtain ⟨coded, hcoded⟩ := f.exists_coded s.reservoir
  rw [decode_ok hcoded] at h
  rw [← Except.ok.inj h, size_soundBytes, Channels.playFrame, Channels.length_playAll, length_zip, f.length_granules,
    Frame.length_coded hcoded]
  rfl

theorem exists_decode (s : FrameDecoder) (f : Frame) : ∃ pcm, (s.decode f).1 = .ok pcm := by
  obtain ⟨coded, h⟩ := f.exists_coded s.reservoir
  rw [decode_ok h]
  exact ⟨_, rfl⟩

end FrameDecoder

/-! ## The reservoir -/

namespace Reservoir

variable {s r : Reservoir} {fresh : Array UInt8} {back : Nat} {fs : List Frame} {f : Frame}

def Within (s r : Reservoir) : Prop := s.bytes.toList <:+ r.bytes.toList

theorem within_empty (r : Reservoir) : Within {} r := nil_suffix

theorem toList_last (bytes : Array UInt8) (n : Nat) :
    (bytes.extract (bytes.size - n) bytes.size).toList = bytes.toList.drop (bytes.toList.length - n) := by
  rw [Array.toList_extract, extract_eq_take_drop, Array.length_toList]
  refine take_of_length_le ?_
  rw [length_drop, Array.length_toList]

theorem size_push (r : Reservoir) (fresh : Array UInt8) :
    (r.push fresh).bytes.size = min (r.bytes.size + fresh.size) capacity := by
  simp only [push, Array.size_extract, Array.size_append]
  omega

theorem suffix_last (h : as <:+ bs) (hmn : m ≤ n) : as.drop (as.length - m) <:+ bs.drop (bs.length - n) := by
  refine suffix_of_suffix_length_le ((drop_suffix _ _).trans h) (drop_suffix _ _) ?_
  have := h.length_le
  simp only [length_drop]
  omega

theorem Within.push (h : Within s r) (fresh : Array UInt8) : Within (s.push fresh) (r.push fresh) := by
  simp only [Within, Reservoir.push, toList_last, Array.toList_append]
  refine suffix_last ?_ le_rfl
  obtain ⟨more, hmore⟩ := h
  exact ⟨more, by rw [← hmore, append_assoc]⟩

theorem Within.data?_eq (h : Within s r) (hback : back ≤ s.bytes.size) : s.data? back fresh = r.data? back fresh := by
  have hle : s.bytes.size ≤ r.bytes.size := by simpa using h.length_le
  have hlast : s.bytes.extract (s.bytes.size - back) s.bytes.size =
      r.bytes.extract (r.bytes.size - back) r.bytes.size := by
    apply Array.toList_inj.mp
    rw [toList_last, toList_last]
    refine (suffix_last h le_rfl).eq_of_length ?_
    simp only [length_drop, Array.length_toList]
    omega
  rw [data?, data?, if_pos hback, if_pos (hback.trans hle), hlast]

theorem Within.coded_eq (h : Within s r) (hback : f.side.mainBegin ≤ s.bytes.size) : f.coded s = f.coded r := by
  rw [Frame.coded, h.data?_eq hback, Frame.coded]

/-- A new reservoir after calls, each with how far back its frame begins and the bytes of the frame. -/
def afterCalls (calls : List (Nat × Array UInt8)) : Reservoir :=
  calls.foldl (fun r call => (r.assemble call.1 call.2).2) {}

def brought (calls : List (Nat × Array UInt8)) : List UInt8 := calls.flatMap (·.2.toList)

theorem drop_drop_append (as bs : List UInt8) (n : Nat) :
    (as.drop (as.length - n) ++ bs).drop ((as.drop (as.length - n) ++ bs).length - n) =
      (as ++ bs).drop ((as ++ bs).length - n) := by
  refine (suffix_last ?_ le_rfl).eq_of_length ?_
  · exact ⟨as.take (as.length - n), by rw [← append_assoc, take_append_drop]⟩
  · simp only [length_drop, length_append]
    omega

theorem bytes_afterCalls (calls : List (Nat × Array UInt8)) :
    (afterCalls calls).bytes.toList = (brought calls).drop ((brought calls).length - capacity) := by
  induction calls using List.reverseRecOn with
  | nil => rfl
  | append_singleton calls call ih =>
    have hafter : afterCalls (calls ++ [call]) = (afterCalls calls).push call.2 := by
      simp only [afterCalls, foldl_append, foldl_cons, foldl_nil, assemble]
    have hbrought : brought (calls ++ [call]) = brought calls ++ call.2.toList := by simp [brought]
    rw [hafter, hbrought, push, toList_last, Array.toList_append, ih, drop_drop_append]

/-- **A reservoir gives what one without bounds would.** It keeps the last bytes of all that calls brought, also of those
that gave nothing, and the next call gets as many of them as it goes back, if there were so many. -/
theorem assemble_afterCalls (calls : List (Nat × Array UInt8)) {back : Nat} (hback : back ≤ capacity)
    (fresh : Array UInt8) :
    let all := brought calls
    (afterCalls calls).bytes.toList = all.drop (all.length - min capacity all.length) ∧
    ((afterCalls calls).assemble back fresh).1.map Array.toList =
      if back ≤ all.length then some (all.drop (all.length - back) ++ fresh.toList) else none := by
  have hbytes := bytes_afterCalls calls
  have hsize : (afterCalls calls).bytes.size = min capacity (brought calls).length := by
    rw [← Array.length_toList, hbytes, length_drop]
    omega
  have hlast : (brought calls).length - min capacity (brought calls).length = (brought calls).length - capacity := by
    omega
  dsimp only
  rw [hlast, assemble, data?]
  refine ⟨hbytes, ?_⟩
  by_cases hle : back ≤ (brought calls).length
  · rw [if_pos (by omega), if_pos hle, Option.map_some, Array.toList_append, toList_last, hbytes, drop_drop, length_drop]
    congr 3
    omega
  · rw [if_neg (by omega), if_neg hle]
    rfl

theorem assemble_afterCalls_two :
    ((afterCalls [(1, #[7, 8]), (0, #[]), (2, #[9])]).assemble 2 #[10]).1.map Array.toList = some [8, 9, 10] :=
  (assemble_afterCalls [(1, #[7, 8]), (0, #[]), (2, #[9])] (by decide) #[10]).2

end Reservoir

/-! ## Channels -/

namespace Synthesis

/-- The latest `k` rounds of two banks are the same. -/
def Alike (k : Nat) (b b' : Filterbank) : Prop := ∀ i : Fin 16, i.val < k → b.get i = b'.get i

theorem Alike.push (h : Alike k b b') (latest : Vector Float32 64) :
    Alike (k + 1) (push b latest) (push b' latest) := by
  intro i hi
  simp only [Synthesis.push, Vector.get_ofFn]
  split
  · rfl
  · exact h ⟨i.val - 1, by omega⟩ (by simp only; omega)

theorem Alike.rounds (h : Alike k b b') (lines : Lines) (rs : List (Fin 18)) :
    Alike (k + rs.length) (rounds lines rs b).2 (rounds lines rs b').2 := by
  induction rs generalizing k b b' with
  | nil => exact h
  | cons r rs ih =>
    have := ih (h.push (mixed lines r))
    rwa [show k + 1 + rs.length = k + (r :: rs).length by rw [length_cons]; omega] at this

end Synthesis

/-- A granule has more rounds than a filterbank keeps. -/
theorem bank_synthesize (lines : Lines) (b b' : Filterbank) : (synthesize lines b).2 = (synthesize lines b').2 := by
  have hzero : Synthesis.Alike 0 b b' := fun i hi => absurd hi (Nat.not_lt_zero _)
  have hall := hzero.rounds lines (finRange 18)
  rw [length_finRange] at hall
  exact Vector.ext fun i hi => hall ⟨i, hi⟩ (by simp only; omega)

theorem overlap_inverseTransform (g : GranuleInfo) (lines : Lines) (o o' : Overlap) :
    (inverseTransform g lines o).2 = (inverseTransform g lines o').2 := by
  simp only [inverseTransform, Transform.overlapAdd]

namespace ChannelState

theorem play_eq (s : ChannelState) (g : GranuleInfo) (lines : Lines) :
    s.play g lines = ((synthesize (inverseTransform g lines s.overlap).1 s.bank).1,
      ⟨(inverseTransform g lines s.overlap).2, (synthesize (inverseTransform g lines s.overlap).1 s.bank).2⟩) := by
  simp only [play]

theorem overlap_play (s t : ChannelState) (g : GranuleInfo) (lines : Lines) :
    (s.play g lines).2.overlap = (t.play g lines).2.overlap := by
  simp only [play_eq]
  exact overlap_inverseTransform g lines _ _

theorem play_state {s t : ChannelState} (h : s.overlap = t.overlap) (g : GranuleInfo) (lines : Lines) :
    (s.play g lines).2 = (t.play g lines).2 := by
  simp only [play_eq, h, bank_synthesize _ s.bank t.bank]

end ChannelState

namespace Channels

/-- The first `n` of the two channels have the same state. -/
def Same (n : Nat) (s t : Channels) : Prop := s.left = t.left ∧ (1 < n → s.right = t.right)

/-- The first `n` of the two channels have the same overlap. -/
def SameOverlap (n : Nat) (s t : Channels) : Prop :=
  s.left.overlap = t.left.overlap ∧ (1 < n → s.right.overlap = t.right.overlap)

theorem playMono_eq (h : Header) (g : GranuleInfo) (c : CodedChannel) : ∃ lines, ∀ s : Channels,
    s.playMono h g c = ((s.left.play g lines).1.map fun x => (x, x), { s with left := (s.left.play g lines).2 }) :=
  ⟨spectrum (Bands.of h.rate) g c, fun s => by simp only [playMono]⟩

theorem playStereo_eq (h : Header) (g₀ g₁ : GranuleInfo) (c₀ c₁ : CodedChannel) : ∃ lines₀ lines₁, ∀ s : Channels,
    s.playStereo h g₀ g₁ c₀ c₁ = ((s.left.play g₀ lines₀).1.zip (s.right.play g₁ lines₁).1,
      ⟨(s.left.play g₀ lines₀).2, (s.right.play g₁ lines₁).2⟩) :=
  ⟨(unjoin h (Bands.of h.rate) g₀ c₀.scale c₀.zeroFrom c₁.zeroFrom (spectrum (Bands.of h.rate) g₀ c₀)
      (spectrum (Bands.of h.rate) g₁ c₁)).1,
    (unjoin h (Bands.of h.rate) g₀ c₀.scale c₀.zeroFrom c₁.zeroFrom (spectrum (Bands.of h.rate) g₀ c₀)
      (spectrum (Bands.of h.rate) g₁ c₁)).2, fun s => by simp only [playStereo]⟩

section

variable {n : Nat} {s t : Channels} {h : Header}

theorem one_lt_channels (hstereo : ¬h.channels = 1) : 1 < h.channels := by
  unfold Header.channels at hstereo ⊢
  split at hstereo <;> simp_all

theorem Same.play (hst : Same n s t) (hn : h.channels ≤ n) :
    (s.play h gs cs).1 = (t.play h gs cs).1 ∧ Same n (s.play h gs cs).2 (t.play h gs cs).2 := by
  obtain ⟨hleft, hright⟩ := hst
  unfold Channels.play
  split
  · obtain ⟨lines, hplay⟩ := playMono_eq h (gs.getD 0 {}) (cs.getD 0 {})
    rw [hplay, hplay, hleft]
    exact ⟨rfl, rfl, hright⟩
  · next hstereo =>
    obtain ⟨lines₀, lines₁, hplay⟩ := playStereo_eq h (gs.getD 0 {}) (gs.getD 1 {}) (cs.getD 0 {}) (cs.getD 1 {})
    rw [hplay, hplay, hleft, hright ((one_lt_channels hstereo).trans_le hn)]
    exact ⟨rfl, rfl, fun _ => rfl⟩

theorem sameOverlap_play (s t : Channels) (h : Header) (gs : List GranuleInfo) (cs : CodedGranule) :
    SameOverlap h.channels (s.play h gs cs).2 (t.play h gs cs).2 := by
  unfold Channels.play
  split
  · next hmono =>
    obtain ⟨lines, hplay⟩ := playMono_eq h (gs.getD 0 {}) (cs.getD 0 {})
    rw [hplay, hplay]
    exact ⟨ChannelState.overlap_play _ _ _ _, fun htwo => absurd hmono (by omega)⟩
  · obtain ⟨lines₀, lines₁, hplay⟩ := playStereo_eq h (gs.getD 0 {}) (gs.getD 1 {}) (cs.getD 0 {}) (cs.getD 1 {})
    rw [hplay, hplay]
    exact ⟨ChannelState.overlap_play _ _ _ _, fun _ => ChannelState.overlap_play _ _ _ _⟩

theorem SameOverlap.play (hst : SameOverlap h.channels s t) :
    Same h.channels (s.play h gs cs).2 (t.play h gs cs).2 := by
  obtain ⟨hleft, hright⟩ := hst
  unfold Channels.play
  split
  · next hmono =>
    obtain ⟨lines, hplay⟩ := playMono_eq h (gs.getD 0 {}) (cs.getD 0 {})
    rw [hplay, hplay]
    exact ⟨ChannelState.play_state hleft _ _, fun htwo => absurd hmono (by omega)⟩
  · next hstereo =>
    obtain ⟨lines₀, lines₁, hplay⟩ := playStereo_eq h (gs.getD 0 {}) (gs.getD 1 {}) (cs.getD 0 {}) (cs.getD 1 {})
    rw [hplay, hplay]
    exact ⟨ChannelState.play_state hleft _ _,
      fun _ => ChannelState.play_state (hright (one_lt_channels hstereo)) _ _⟩

theorem Same.playAll (hst : Same n s t) (hn : h.channels ≤ n) :
    (s.playAll h parts).1 = (t.playAll h parts).1 ∧ Same n (s.playAll h parts).2 (t.playAll h parts).2 := by
  induction parts generalizing s t with
  | nil => exact ⟨rfl, hst⟩
  | cons part parts ih =>
    obtain ⟨gs, cs⟩ := part
    obtain ⟨hsound, hnext⟩ : (s.play h gs cs).1 = (t.play h gs cs).1 ∧ Same n (s.play h gs cs).2 (t.play h gs cs).2 :=
      hst.play hn
    obtain ⟨hlater, hlast⟩ := ih hnext
    refine ⟨?_, hlast⟩
    simp only [Channels.playAll, hsound, hlater]

theorem Same.playFrame (hst : Same n s t) (coded : List CodedGranule) (hn : f.header.channels ≤ n) :
    (s.playFrame f coded).1 = (t.playFrame f coded).1 ∧ Same n (s.playFrame f coded).2 (t.playFrame f coded).2 :=
  hst.playAll hn

end

/-- **A frame leaves the same, whatever its channels began with.** Its first granule brings the overlaps together, and
its second the filterbanks. -/
theorem same_playFrame (s t : Channels) {f : Frame} (h : f.coded r = .ok coded) :
    Same f.header.channels (s.playFrame f coded).2 (t.playFrame f coded).2 := by
  have hlen : (f.side.granules.zip coded).length = 2 := by
    rw [length_zip, f.length_granules, Frame.length_coded h]
    rfl
  obtain ⟨⟨gs₁, cs₁⟩, ⟨gs₂, cs₂⟩, hparts⟩ := length_eq_two.mp hlen
  simp only [playFrame, hparts, playAll]
  exact (sameOverlap_play s t f.header gs₁ cs₁).play

end Channels

/-! ## Decoders -/

namespace FrameDecoder

variable {s : FrameDecoder} {f : Frame} {fs : List Frame}

def after (s : FrameDecoder) (fs : List Frame) : FrameDecoder := fs.foldl (fun s f => (s.decode f).2) s

theorem after_append (s : FrameDecoder) (fs gs : List Frame) : s.after (fs ++ gs) = (s.after fs).after gs := by
  simp only [after, foldl_append]

theorem after_cons (s : FrameDecoder) (f : Frame) (fs : List Frame) :
    s.after (f :: fs) = (s.decode f).2.after fs := by
  simp only [after, foldl_cons]

def sound (s : FrameDecoder) : List Frame → List UInt8
  | [] => []
  | f :: fs =>
    (match (s.decode f).1 with
      | .ok pcm => pcm.toList
      | .error _ => []) ++ (s.decode f).2.sound fs

theorem sound_cons (h : (s.decode f).1 = .ok pcm) (fs : List Frame) :
    s.sound (f :: fs) = pcm.toList ++ (s.decode f).2.sound fs := by
  rw [sound, h]

theorem length_sound (s : FrameDecoder) (fs : List Frame) : (s.sound fs).length = bytesPerFrame * fs.length := by
  induction fs generalizing s with
  | nil => rfl
  | cons f fs ih =>
    obtain ⟨pcm, hpcm⟩ := s.exists_decode f
    rw [sound_cons hpcm, length_append, Array.length_toList, size_decode hpcm, ih, length_cons, Nat.mul_succ,
      Nat.add_comm]

theorem sound_append (s : FrameDecoder) (fs gs : List Frame) :
    s.sound (fs ++ gs) = s.sound fs ++ (s.after fs).sound gs := by
  induction fs generalizing s with
  | nil => rfl
  | cons f fs ih => rw [cons_append, sound, sound, ih, after_cons, append_assoc]

theorem drop_sound (s : FrameDecoder) (fs gs : List Frame) (n : Nat) :
    (s.sound (fs ++ gs)).drop (bytesPerFrame * fs.length + n) = ((s.after fs).sound gs).drop n := by
  rw [sound_append, ← s.length_sound, drop_append, drop_eq_nil_of_le (Nat.le_add_right _ _), nil_append,
    Nat.add_sub_cancel_left]

/-- One decoder has the end of what the other has in its reservoir, and the same state of `n` channels. -/
structure Agrees (n : Nat) (s t : FrameDecoder) : Prop where
  reservoir : s.reservoir.Within t.reservoir
  channels : s.channels.Same n t.channels

variable {n : Nat} {s t : FrameDecoder} {f : Frame}

/-- A frame that has all its main data itself makes decoders agree. -/
theorem agrees_of_clean (h : s.reservoir.Within t.reservoir) (hclean : f.side.mainBegin = 0) :
    Agrees f.header.channels (s.decode f).2 (t.decode f).2 := by
  obtain ⟨coded, ht⟩ := f.exists_coded t.reservoir
  have hs : f.coded s.reservoir = .ok coded := by rw [h.coded_eq (by omega), ht]
  rw [decode_ok hs, decode_ok ht]
  exact ⟨h.push f.fresh, Channels.same_playFrame _ _ ht⟩

/-- Decoders that agree go on so with frames whose main data both have. -/
theorem Agrees.decode (h : Agrees n s t) (hn : f.header.channels ≤ n)
    (hback : f.side.mainBegin ≤ s.reservoir.bytes.size) :
    (s.decode f).1 = (t.decode f).1 ∧ Agrees n (s.decode f).2 (t.decode f).2 := by
  obtain ⟨coded, ht⟩ := f.exists_coded t.reservoir
  rw [decode_ok ht, decode_ok ((h.reservoir.coded_eq hback).trans ht)]
  obtain ⟨hsound, hchannels⟩ := h.channels.playFrame coded hn
  exact ⟨by simp only [hsound], h.reservoir.push f.fresh, hchannels⟩

/-- The main data of each frame begins no further back than there are bytes, with `m` of them before the first. -/
def Supplied (m : Nat) : List Frame → Prop
  | [] => True
  | f :: fs => f.side.mainBegin ≤ m ∧ Supplied (m + f.fresh.size) fs

/-- **Decoders that agree give the same sound**, as long as the frames find their main data in what both have. -/
theorem Agrees.sound (h : Agrees n s t) (hm : min m Reservoir.capacity ≤ s.reservoir.bytes.size)
    (hsupplied : Supplied m fs) (hn : ∀ f ∈ fs, f.header.channels ≤ n) : s.sound fs = t.sound fs := by
  induction fs generalizing m s t with
  | nil => rfl
  | cons f fs ih =>
    rw [forall_mem_cons] at hn
    have hback : f.side.mainBegin ≤ s.reservoir.bytes.size := by
      have := f.mainBegin_lt
      have := hsupplied.1
      simp only [Reservoir.capacity] at hm
      omega
    obtain ⟨hpcm, hnext⟩ := h.decode hn.1 hback
    have hsize : min (m + f.fresh.size) Reservoir.capacity ≤ (s.decode f).2.reservoir.bytes.size := by
      rw [reservoir_decode, Reservoir.size_push]
      omega
    rw [FrameDecoder.sound, FrameDecoder.sound, hpcm, ih hnext hsize hsupplied.2 hn.2]

end FrameDecoder

end GameMedia.Audio
