import GameMedia.Proofs.Audio.Bounds

/-!
# Channels apart

What a channel sounds like depends on that channel alone, as long as the two are not coded together. A channel is played
by itself, granule after granule, and a frame is shown to give just this on each side. So no change to one channel can be
heard in the other, and the one channel of a mono frame is heard on both sides.
-/

namespace GameMedia.Audio

open List hiding Vector
open Prod

/-! ## Bytes of each side -/

/-- Every other pair of bytes, from the first on: those of the left samples. -/
def leftBytes : List UInt8 → List UInt8
  | a :: b :: _ :: _ :: rest => a :: b :: leftBytes rest
  | _ => []

/-- Those of the right samples. -/
def rightBytes : List UInt8 → List UInt8
  | _ :: _ :: a :: b :: rest => a :: b :: rightBytes rest
  | _ => []

theorem leftBytes_sound (sound : List (Int16 × Int16)) :
    leftBytes (soundBytes sound).toList = (sound.map fst).flatMap sampleBytes := by
  change leftBytes (sound.flatMap _) = _
  induction sound with
  | nil => rfl
  | cons p sound ih =>
    rw [flatMap_cons, map_cons, flatMap_cons, ← ih]
    rfl

theorem rightBytes_sound (sound : List (Int16 × Int16)) :
    rightBytes (soundBytes sound).toList = (sound.map snd).flatMap sampleBytes := by
  change rightBytes (sound.flatMap _) = _
  induction sound with
  | nil => rfl
  | cons p sound ih =>
    rw [flatMap_cons, map_cons, flatMap_cons, ← ih]
    rfl

/-! ## A channel by itself -/

/-- A channel's granules with their data, played one after the other. -/
def ChannelState.playAll (s : ChannelState) (bands : Bands) :
    List (GranuleInfo × CodedChannel) → List Int16 × ChannelState
  | [] => ([], s)
  | (g, c) :: rest =>
    let (sound, s) := s.play g (spectrum bands g c)
    let (later, s) := s.playAll bands rest
    (sound ++ later, s)

/-- A channel's part of the granules of a frame. -/
def channelParts (k : Nat) (parts : List (List GranuleInfo × CodedGranule)) : List (GranuleInfo × CodedChannel) :=
  parts.map fun p => (p.1.getD k {}, p.2.getD k {})

namespace Channels

variable {h : Header} (s : Channels) (parts : List (List GranuleInfo × CodedGranule))

theorem playAll_mono (hmono : h.channels = 1) : (s.playAll h parts).1 =
    (s.left.playAll (Bands.of h.rate) (channelParts 0 parts)).1.map fun x => (x, x) := by
  induction parts generalizing s with
  | nil => rfl
  | cons part parts ih =>
    obtain ⟨gs, cs⟩ := part
    simp only [playAll, play, if_pos hmono, playMono, ih, channelParts, map_cons, ChannelState.playAll, map_append]

/-- **Two channels that are not coded together are played apart.** -/
theorem playAll_plain (htwo : h.channels = 2) (hmid : h.usesMidSide = false) (hint : h.usesIntensity = false) :
    (s.playAll h parts).1.map fst = (s.left.playAll (Bands.of h.rate) (channelParts 0 parts)).1 ∧
    (s.playAll h parts).1.map snd = (s.right.playAll (Bands.of h.rate) (channelParts 1 parts)).1 ∧
    (s.playAll h parts).2.left = (s.left.playAll (Bands.of h.rate) (channelParts 0 parts)).2 ∧
    (s.playAll h parts).2.right = (s.right.playAll (Bands.of h.rate) (channelParts 1 parts)).2 := by
  have hone : h.channels ≠ 1 := by omega
  induction parts generalizing s with
  | nil => exact ⟨rfl, rfl, rfl, rfl⟩
  | cons part parts ih =>
    obtain ⟨gs, cs⟩ := part
    have hsides : ∀ {g₀ g₁ lines₀ lines₁}, (s.left.play g₀ lines₀).1.length = (s.right.play g₁ lines₁).1.length :=
      fun {_ _ _ _} => (s.left.length_play _ _).trans (s.right.length_play _ _).symm
    have hnext := ih (s.play h gs cs).2
    simp only [play, if_neg hone, playStereo, unjoin, hmid, hint, Bool.false_eq_true, if_false] at hnext
    simp only [playAll, play, if_neg hone, playStereo, unjoin, hmid, hint, Bool.false_eq_true, if_false, map_append,
      map_fst_zip hsides.le, map_snd_zip hsides.ge, channelParts, map_cons, ChannelState.playAll]
    simp only [channelParts] at hnext
    exact ⟨by rw [hnext.1], by rw [hnext.2.1], hnext.2.2⟩

end Channels

/-! ## Frames -/

/-- A channel has the same granules with the same data in two frames. -/
def SameChannel (k : Nat) (side side' : SideInfo) (coded coded' : List CodedGranule) : Prop :=
  side.granules.map (·.getD k {}) = side'.granules.map (·.getD k {}) ∧
    coded.map (·.getD k {}) = coded'.map (·.getD k {})

theorem SameChannel.parts {k : Nat} {side side' : SideInfo} {coded coded' : List CodedGranule}
    (h : SameChannel k side side' coded coded') :
    channelParts k (side.granules.zip coded) = channelParts k (side'.granules.zip coded') := by
  have hzip : ∀ (gs : List (List GranuleInfo)) (cs : List CodedGranule),
      channelParts k (gs.zip cs) = (gs.map (·.getD k {})).zip (cs.map (·.getD k {})) := by
    intro gs cs
    rw [channelParts, zip_map]
    rfl
  rw [hzip, hzip, h.1, h.2]

/-- **Channels are separate.** A frame fills all its bytes, whatever was there. The two sides of a mono frame are alike.
Of two channels that use neither mid and side nor intensity, each has the sound and the state that it has in any other
frame of that kind, with any other decoder, as long as its own state, its own granules and its own data are the same. -/
theorem channels_separate (d : FrameDecoder) {f : Frame}
    (hroom : f.header.crcSize + f.header.sideInfoSize ≤ f.body.size) :
    ∃ bytes d₁, d.decode f = (.ok bytes, d₁) ∧ bytes.size = bytesPerFrame ∧
      (∀ out, d.decode? f out = some (.ok bytes, d₁)) ∧
      (f.header.channels = 1 → leftBytes bytes.toList = rightBytes bytes.toList) ∧
      (f.header.channels = 2 → f.header.usesMidSide = false → f.header.usesIntensity = false →
        ∀ (d' : FrameDecoder) (f' : Frame) (coded coded' : List CodedGranule) (bytes' : Array UInt8) (d₁' : FrameDecoder),
          f'.header = f.header → f.coded d.reservoir = .ok coded → f'.coded d'.reservoir = .ok coded' →
          d'.decode f' = (.ok bytes', d₁') →
          (SameChannel 0 f.side f'.side coded coded' → d.channels.left = d'.channels.left →
            leftBytes bytes.toList = leftBytes bytes'.toList ∧ d₁.channels.left = d₁'.channels.left) ∧
          (SameChannel 1 f.side f'.side coded coded' → d.channels.right = d'.channels.right →
            rightBytes bytes.toList = rightBytes bytes'.toList ∧ d₁.channels.right = d₁'.channels.right)) := by
  obtain ⟨coded, hcoded⟩ := f.exists_coded d.reservoir
  have hdecode := FrameDecoder.decode_ok hcoded
  refine ⟨_, _, hdecode, FrameDecoder.size_decode (congrArg fst hdecode), fun out => ?_, fun hmono => ?_, ?_⟩
  · rw [d.decode?_eq hroom, hdecode]
  · rw [leftBytes_sound, rightBytes_sound, Channels.playFrame, Channels.playAll_mono _ _ hmono, List.map_map, List.map_map]
    rfl
  · intro htwo hmid hint d' f' coded₀ coded' bytes' d₁' hheader hcoded₀ hcoded' hdecode'
    obtain rfl : coded = coded₀ := Except.ok.inj (hcoded.symm.trans hcoded₀)
    rw [FrameDecoder.decode_ok hcoded'] at hdecode'
    cases hdecode'
    obtain ⟨hl, hr, hleft, hright⟩ := d.channels.playAll_plain (f.side.granules.zip coded) htwo hmid hint
    rw [← hheader] at htwo hmid hint
    obtain ⟨hl', hr', hleft', hright'⟩ := d'.channels.playAll_plain (f'.side.granules.zip coded') htwo hmid hint
    refine ⟨fun hsame hstate => ?_, fun hsame hstate => ?_⟩
    · rw [leftBytes_sound, leftBytes_sound, Channels.playFrame, Channels.playFrame, hl, hl', hleft, hleft',
        hsame.parts, hstate, hheader]
      exact ⟨rfl, rfl⟩
    · rw [rightBytes_sound, rightBytes_sound, Channels.playFrame, Channels.playFrame, hr, hr', hright, hright',
        hsame.parts, hstate, hheader]
      exact ⟨rfl, rfl⟩

/-- Two channels of silence that have nothing to do with each other. -/
def dualFrame : Frame := ⟨0, ⟨32000, .hz44100, false, false, .dual, 0⟩, Array.replicate 100 0⟩

/-- What the right channel carries is not heard on the left. -/
theorem dualFrame_separate : dualFrame.header.crcSize + dualFrame.header.sideInfoSize ≤ dualFrame.body.size ∧
    ∀ (r : Reservoir) (left right right' : ChannelState), ∃ bytes bytes' d₁ d₁',
      FrameDecoder.decode ⟨r, left, right⟩ dualFrame = (.ok bytes, d₁) ∧
      FrameDecoder.decode ⟨r, left, right'⟩ dualFrame = (.ok bytes', d₁') ∧
      leftBytes bytes.toList = leftBytes bytes'.toList ∧ d₁.channels.left = d₁'.channels.left := by
  have hroom : dualFrame.header.crcSize + dualFrame.header.sideInfoSize ≤ dualFrame.body.size := by
    rw [dualFrame, Array.size_replicate]
    decide
  refine ⟨hroom, fun r left right right' => ?_⟩
  obtain ⟨bytes, d₁, hdecode, -, -, -, hplain⟩ := channels_separate ⟨r, left, right⟩ hroom
  obtain ⟨bytes', d₁', hdecode', -⟩ := channels_separate ⟨r, left, right'⟩ hroom
  obtain ⟨coded, hcoded⟩ := dualFrame.exists_coded r
  refine ⟨bytes, bytes', d₁, d₁', hdecode, hdecode', ?_⟩
  exact (hplain rfl rfl rfl ⟨r, left, right'⟩ _ coded coded _ _ (Eq.refl _) hcoded hcoded hdecode').1
    ⟨Eq.refl _, Eq.refl _⟩ rfl

end GameMedia.Audio
