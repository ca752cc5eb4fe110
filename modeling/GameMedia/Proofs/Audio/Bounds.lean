import GameMedia.Audio.FrameReader
import GameMedia.Proofs.Audio.CheckedSound
import GameMedia.Proofs.Audio.CheckedStereo

/-!
# Decoding stays within bounds

A frame decoded with checked accesses throughout. The side information comes from bits that can have any values, and its
fields are as large as their bits allow and no larger; everything that is accessed with them is then in range. So
checking never stops the decoder, whatever the bytes of the frame are and whatever is left from earlier ones, and the
sound is the same.
-/

namespace GameMedia.Audio

open List hiding Vector
open Except Prod

/-! ## Sizes of frames -/

namespace Header

variable {word : UInt32} {h : Header}

theorem bitrate?_bounds {i bitrate : Nat} (h : bitrate? i = some bitrate) : 32000 ≤ bitrate ∧ bitrate ≤ 320000 := by
  have hall : ∀ b ∈ bitrates.tail, 32000 ≤ b ∧ b ≤ 320000 := by decide
  cases i with
  | zero => cases h
  | succ i =>
    have hmem : bitrates.tail[i]? = some bitrate := h
    exact hall bitrate (mem_of_getElem? hmem)

/-- **What a word can be**: a header with one of the bit rates, one to skip, or one of another version or layer. -/
theorem ofWord_cases (word : UInt32) :
    (∃ h, ofWord word = .ok h ∧ 32000 ≤ h.bitrate ∧ h.bitrate ≤ 320000) ∨
    ∃ e, ofWord word = .error e ∧
      (e = .invalidHeader word ∨ (∃ v, e = .unsupportedVersion v) ∨ ∃ l, e = .unsupportedLayer l) := by
  unfold ofWord
  split
  · exact .inr ⟨_, rfl, .inl rfl⟩
  · split
    · next bitrate rate hbitrate _ =>
      cases hversion : versionLayer word with
      | ok => exact .inl ⟨_, rfl, bitrate?_bounds hbitrate⟩
      | error e =>
        refine .inr ⟨e, rfl, .inr ?_⟩
        unfold versionLayer at hversion
        split at hversion <;> cases hversion
        · exact .inl ⟨_, rfl⟩
        · exact .inl ⟨_, rfl⟩
        · exact .inr ⟨_, rfl⟩
    · exact .inr ⟨_, rfl, .inl rfl⟩

theorem bitrate_bounds (hword : ofWord word = .ok h) : 32000 ≤ h.bitrate ∧ h.bitrate ≤ 320000 := by
  obtain ⟨h', hok, hbounds⟩ | ⟨e, herror, -⟩ := ofWord_cases word
  · exact ok.inj (hok.symm.trans hword) ▸ hbounds
  · cases herror.symm.trans hword

theorem frameSize_bounds (hword : ofWord word = .ok h) : 96 ≤ h.frameSize ∧ h.frameSize ≤ 1441 := by
  obtain ⟨hlow, hhigh⟩ := bitrate_bounds hword
  have hpadding : (if h.padding then 1 else 0) ≤ 1 := by split <;> decide
  unfold frameSize
  cases h.rate with
  | hz44100 =>
    simp only [SampleRate.hertz]
    omega
  | hz48000 =>
    simp only [SampleRate.hertz]
    omega
  | hz32000 =>
    simp only [SampleRate.hertz]
    omega

theorem sideEnd_le (h : Header) : h.crcSize + h.sideInfoSize ≤ 34 := by
  unfold crcSize sideInfoSize
  split
  · split <;> decide
  · split <;> decide

end Header

def AudioError.ofStream : AudioError → Bool
  | invalidHeader _ | frameTooLarge _ | badCode _ => false
  | _ => true

namespace FrameReader

variable {σ : Type} [ByteSource σ]

/-- What is found is the header of a word. -/
theorem sync_result (r : FrameReader σ) (offset : Nat) (word : UInt32) : match (r.sync offset word).1 with
    | .ok found => ∀ p ∈ found, ∃ w, Header.ofWord w = .ok p.2
    | .error e => e.ofStream := by
  fun_induction sync r offset word with
  | case1 r offset word h hword => exact fun p hp => Option.some.inj hp ▸ ⟨word, hword⟩
  | case2 r offset word _ _ b bs r' htake _ ih => exact ih
  | case3 => exact fun p hp => by cases hp
  | case4 => rfl
  | case5 r offset word e hinvalid hword =>
    obtain ⟨h, hok, -⟩ | ⟨e', herror, hcases⟩ := Header.ofWord_cases word
    · cases hok.symm.trans hword
    · obtain rfl := error.inj (herror.symm.trans hword)
      rcases hcases with rfl | ⟨_, rfl⟩ | ⟨_, rfl⟩
      · exact absurd rfl (hinvalid word)
      · rfl
      · rfl

/-- No frame that is found is too large. -/
theorem next?_error {r : FrameReader σ} (hnext : r.next?.1 = .error e) : e.ofStream := by
  unfold next? at hnext
  split at hnext
  · cases hnext
    rfl
  · split at hnext
    · cases hnext
    · next bs r₁ _ _ =>
      have hresult := r₁.sync_result (r₁.pos - 4) (wordOf bs)
      split at hnext
      · next hsync =>
        rw [hsync] at hresult
        exact error.inj hnext ▸ hresult
      · cases hnext
      · next offset h r₂ hsync =>
        rw [hsync] at hresult
        obtain ⟨word, hword⟩ : ∃ word, Header.ofWord word = .ok h := hresult _ rfl
        have hsize := (Header.frameSize_bounds hword).2
        have hmax : ¬ Header.maxFrameSize < h.frameSize := by
          simp only [Header.maxFrameSize]
          omega
        rw [readBody, if_neg hmax] at hnext
        split at hnext
        · cases hnext
        · next e r₃ hbody =>
          obtain rfl := error.inj hnext
          split at hbody
          · split at hbody <;> cases hbody
            rfl
          · cases hbody
            rfl

/-- **No stream has a frame that is too large.** -/
theorem next?_ne_frameTooLarge (r : FrameReader σ) (size : Nat) : r.next?.1 ≠ .error (.frameTooLarge size) :=
  fun h => Bool.noConfusion (next?_error h)

end FrameReader

/-! ## Side information -/

namespace BitRead

variable {α β : Type} {P : α → Prop} {Q : β → Prop}

def Gives (x : BitRead α) (P : α → Prop) : Prop := ∀ r, P (x r).1

theorem gives_any (x : BitRead α) : x.Gives fun _ => True := fun _ => trivial

theorem gives_pure (h : P a) : Gives (pure a) P := fun _ => h

theorem gives_bits (n : Nat) : (bits n).Gives (· < 2 ^ n) := fun r => BitReader.bitsAt_lt r.data r.pos n

theorem Gives.bind (hx : x.Gives P) (hf : ∀ a, P a → (f a).Gives Q) : Gives (x >>= f) Q := fun r => hf _ (hx r) _

theorem Gives.times (h : item.Gives P) (n : Nat) :
    (times item n).Gives fun as => as.length = n ∧ ∀ a ∈ as, P a := by
  intro r
  refine ⟨length_times item n r, ?_⟩
  induction n generalizing r with
  | zero => exact forall_mem_nil _
  | succ n ih => exact forall_mem_cons.mpr ⟨h r, ih _⟩

end BitRead

open BitRead

variable {sound : List (Int16 × Int16)} {f : Frame}

namespace GranuleInfo

variable {g : GranuleInfo}

theorem readSwitched_valid (hscale : g.scaleLengths < 16) (hbig : g.bigValues ≤ maxBigValues) :
    (readSwitched g).Gives Valid := by
  refine (gives_any _).bind fun kind _ => (gives_any _).bind fun mixed _ => ?_
  refine ((gives_bits 5).times 2).bind fun tables htables => ?_
  refine ((gives_any _).times 3).bind fun gains hgains => gives_pure ?_
  refine ⟨hscale, hbig, ?_, ?_, hgains.1⟩
  · rw [length_append, htables.1]
    rfl
  · intro t ht
    rcases mem_append.mp ht with ht | ht
    · exact htables.2 t ht
    · rw [mem_singleton.mp ht]
      decide

theorem readPlain_valid (hscale : g.scaleLengths < 16) (hbig : g.bigValues ≤ maxBigValues)
    (hgains : g.subblockGains.length = 3) : (readPlain g).Gives Valid := by
  refine ((gives_bits 5).times 3).bind fun tables htables => (gives_any _).bind fun region0 _ => ?_
  exact (gives_any _).bind fun region1 _ => gives_pure ⟨hscale, hbig, htables.1, htables.2, hgains⟩

/-- **A granule that is read has fields of the sizes that its bits allow.** -/
theorem read_valid : GranuleInfo.read.Gives Valid := by
  have hflags : ∀ g : GranuleInfo, g.Valid → Gives (do
      let preflag ← bit
      let coarseScale ← bit
      let quadTableB ← bit
      return { g with preflag, coarseScale, quadTableB }) Valid := by
    intro g hg
    refine (gives_any _).bind fun _ _ => (gives_any _).bind fun _ _ => (gives_any _).bind fun _ _ => gives_pure ?_
    exact ⟨hg.scaleLengths, hg.bigValues, hg.tables, hg.table_lt, hg.gains⟩
  refine (gives_any _).bind fun length _ => (gives_any _).bind fun bigValues _ => ?_
  refine (gives_any _).bind fun globalGain _ => ?_
  refine (gives_bits 4).bind fun scaleLengths hscale => (gives_any _).bind fun windowSwitching _ => ?_
  dsimp only
  split
  · exact (readSwitched_valid hscale (Nat.min_le_right _ _)).bind hflags
  · exact (readPlain_valid hscale (Nat.min_le_right _ _) rfl).bind hflags

end GranuleInfo

theorem SideInfo.read_valid (channels : Nat) : (SideInfo.read channels).Gives (·.Valid channels) := by
  refine (gives_any _).bind fun mainBegin _ => (gives_any _).bind fun _ _ => ?_
  refine (((gives_any bit).times 4).times channels).bind fun reuse hreuse => ?_
  refine ((GranuleInfo.read_valid.times channels).times 2).bind fun granules hgranules => gives_pure ?_
  exact ⟨hgranules.1, fun gs hgs => (hgranules.2 gs hgs).1, fun gs hgs => (hgranules.2 gs hgs).2, hreuse.1,
    fun flags hflags => (hreuse.2 flags hflags).1⟩

theorem Frame.side_valid (f : Frame) : f.side.Valid f.header.channels := SideInfo.read_valid _ _

/-! ## Granules -/

def granuleBytes (sound : List (Int16 × Int16)) : GranuleBytes := Vector.ofFn fun i => (soundBytes sound).getD i 0

def spectrum? (bands : Bands) (g : GranuleInfo) (c : CheckedChannel) : Option Lines := do
  let lines ← requantize? g bands c
  reorder? g bands c.zeroFrom lines

namespace Channels

def playMono? (s : Channels) (h : Header) (gs : List GranuleInfo) (cs : List CheckedChannel) (out : GranuleBytes) :
    Option (Channels × GranuleBytes) := do
  let g ← gs[0]?
  let c ← cs[0]?
  let lines ← spectrum? (Bands.of h.rate) g c
  let p ← s.left.play? g lines [0, 1] out
  return ({ s with left := p.1 }, p.2)

def playStereo? (s : Channels) (h : Header) (gs : List GranuleInfo) (cs : List CheckedChannel) (out : GranuleBytes) :
    Option (Channels × GranuleBytes) := do
  let g₀ ← gs[0]?
  let g₁ ← gs[1]?
  let c₀ ← cs[0]?
  let c₁ ← cs[1]?
  let left ← spectrum? (Bands.of h.rate) g₀ c₀
  let right ← spectrum? (Bands.of h.rate) g₁ c₁
  let lines ← unjoin? h (Bands.of h.rate) g₀ c₀.scale c₀.zeroFrom c₁.zeroFrom left right
  let p ← s.left.play? g₀ lines.1 [0] out
  let q ← s.right.play? g₁ lines.2 [1] p.2
  return ({ left := p.1, right := q.1 }, q.2)

def play? (s : Channels) (h : Header) (gs : List GranuleInfo) (cs : List CheckedChannel) (out : GranuleBytes) :
    Option (Channels × GranuleBytes) :=
  if h.channels = 1 then s.playMono? h gs cs out else s.playStereo? h gs cs out

end Channels

theorem spectrum?_eq (bands : Bands) [bands.Regular] (hg : g.Valid) (hc : c.Fits) :
    spectrum? bands g c.checked = some (spectrum bands g c) := by
  rw [spectrum?, requantize?_eq hg hc, some_bind]
  exact reorder?_eq g bands c.zeroFrom _

theorem granuleBytes_get (h : sound.length = lineCount) (hi : i < bytesPerGranule) :
    (granuleBytes sound).get ⟨i, hi⟩ =
      if i % 4 / 2 = 0 then soundByte (sound.map fst) i else soundByte (sound.map snd) i := by
  rw [granuleBytes, Vector.get_ofFn]
  exact soundBytes_getD sound (by rw [h]; exact hi)

namespace Channels

variable (s : Channels) (h : Header)

theorem playMono?_eq (hg : g.Valid) (hc : c.Fits) (out : GranuleBytes) :
    s.playMono? h [g] [c.checked] out = some ((s.playMono h g c).2, granuleBytes (s.playMono h g c).1) := by
  have hbytes : (writes? out (soundWrites [0, 1] 0 (s.left.play g (spectrum (Bands.of h.rate) g c)).1)) =
      some (granuleBytes (s.playMono h g c).1) := by
    rw [writes?_soundWrites (by decide) (ChannelState.length_play _ _ _)]
    refine congrArg some (Vector.ext fun i hi => ?_)
    have hslot : i % 4 / 2 ∈ [0, 1] := by
      have hlt : i % 4 / 2 < 2 := by omega
      simp only [mem_cons, not_mem_nil, or_false]
      omega
    rw [Vector.getElem_ofFn, if_pos hslot]
    refine Eq.trans ?_ (granuleBytes_get (length_playMono s h g c) hi).symm
    have hsides : ∀ xs : List Int16, (xs.map fun x => (x, x)).map fst = xs ∧
        (xs.map fun x => (x, x)).map snd = xs := by
      intro xs
      simp [Function.comp_def]
    rw [playMono]
    dsimp only
    rw [(hsides _).1, (hsides _).2, ite_self]
  change (spectrum? (Bands.of h.rate) g c.checked >>= fun lines => s.left.play? g lines [0, 1] out >>= fun p =>
    some ({ s with left := p.1 }, p.2)) = _
  rw [spectrum?_eq (.of h.rate) hg hc, some_bind, ChannelState.play?_eq, hbytes]
  rfl

theorem playStereo?_eq (hg₀ : g₀.Valid) (hg₁ : g₁.Valid) (hc₀ : c₀.Fits)
    (hc₁ : c₁.Fits) (out : GranuleBytes) :
    s.playStereo? h [g₀, g₁] [c₀.checked, c₁.checked] out =
      some ((s.playStereo h g₀ g₁ c₀ c₁).2, granuleBytes (s.playStereo h g₀ g₁ c₀ c₁).1) := by
  change (spectrum? (Bands.of h.rate) g₀ c₀.checked >>= fun left => spectrum? (Bands.of h.rate) g₁ c₁.checked >>=
    fun right => unjoin? h (Bands.of h.rate) g₀ c₀.scale.tables c₀.zeroFrom c₁.zeroFrom left right >>= fun lines =>
      s.left.play? g₀ lines.1 [0] out >>= fun p => s.right.play? g₁ lines.2 [1] p.2 >>= fun q =>
        some (({ left := p.1, right := q.1 } : Channels), q.2)) = _
  rw [spectrum?_eq (.of h.rate) hg₀ hc₀, some_bind, spectrum?_eq (.of h.rate) hg₁ hc₁, some_bind,
    unjoin?_eq h hc₀.zeroFrom hc₁.zeroFrom, some_bind]
  have hlength := length_playStereo s h g₀ g₁ c₀ c₁
  unfold playStereo at hlength ⊢
  dsimp only at hlength ⊢
  generalize unjoin h (Bands.of h.rate) g₀ c₀.scale c₀.zeroFrom c₁.zeroFrom (spectrum (Bands.of h.rate) g₀ c₀)
    (spectrum (Bands.of h.rate) g₁ c₁) = lines at hlength ⊢
  have hleft := s.left.length_play g₀ lines.1
  have hright := s.right.length_play g₁ lines.2
  rw [ChannelState.play?_eq, writes?_soundWrites (by decide) hleft, Option.map_some, some_bind, ChannelState.play?_eq,
    writes?_soundWrites (by decide) hright, Option.map_some, some_bind]
  refine congrArg some (Prod.ext rfl (Vector.ext fun i hi => ?_))
  refine Eq.trans ?_ (granuleBytes_get hlength hi).symm
  rw [Vector.getElem_ofFn, Vector.get_ofFn, map_fst_zip (by rw [hleft, hright]),
    map_snd_zip (by rw [hleft, hright])]
  by_cases hslot : i % 4 / 2 = 0
  · rw [if_neg (by simp [hslot]), if_pos (by simp [hslot]), if_pos hslot]
  · have hone : i % 4 / 2 = 1 := by omega
    rw [if_pos (by simp [hone]), if_neg hslot]

/-- **A granule is played within its tables and its bytes.** -/
theorem play?_eq (hlength : gs.length = h.channels) (hgs : ∀ g ∈ gs, g.Valid)
    (hlength' : cs.length = h.channels) (hcs : ∀ c ∈ cs, c.Fits) (out : GranuleBytes) :
    s.play? h gs (cs.map CodedChannel.checked) out = some ((s.play h gs cs).2, granuleBytes (s.play h gs cs).1) := by
  unfold play? play
  by_cases hmono : h.channels = 1
  · rw [if_pos hmono, if_pos hmono]
    rw [hmono] at hlength hlength'
    obtain ⟨g, rfl⟩ := length_eq_one_iff.mp hlength
    obtain ⟨c, rfl⟩ := length_eq_one_iff.mp hlength'
    exact s.playMono?_eq h (hgs g mem_cons_self) (hcs c mem_cons_self) out
  · have htwo : h.channels = 2 := by
      unfold Header.channels at hmono ⊢
      split at hmono
      · exact absurd rfl hmono
      · next hmode => rw [if_neg hmode]
    rw [if_neg hmono, if_neg hmono]
    rw [htwo] at hlength hlength'
    obtain ⟨g₀, g₁, rfl⟩ := length_eq_two.mp hlength
    obtain ⟨c₀, c₁, rfl⟩ := length_eq_two.mp hlength'
    exact s.playStereo?_eq h (hgs g₀ (by simp)) (hgs g₁ (by simp)) (hcs c₀ (by simp)) (hcs c₁ (by simp)) out

end Channels

/-! ## Frames -/

abbrev FrameBytes : Type := Vector UInt8 bytesPerFrame

def Frame.side? (f : Frame) : Option SideInfo := do
  let bytes ← slice? f.body f.header.crcSize (f.header.crcSize + f.header.sideInfoSize)
  return SideInfo.ofBytes f.header bytes

def Frame.fresh? (f : Frame) : Option (Array UInt8) :=
  slice? f.body (f.header.crcSize + f.header.sideInfoSize) f.body.size

namespace Reservoir

/-- The main data that begins so many bytes back. That these bytes are missing is no access out of range. -/
def dataFrom? (r : Reservoir) (back : Nat) (fresh : Array UInt8) : Option (Option (Array UInt8)) := do
  if back ≤ r.bytes.size then
    let start ← minus? r.bytes.size back
    let old ← slice? r.bytes start r.bytes.size
    return some (old ++ fresh)
  else return none

def push? (r : Reservoir) (fresh : Array UInt8) : Option Reservoir := do
  let all := r.bytes ++ fresh
  if capacity < all.size then
    let start ← minus? all.size capacity
    let kept ← slice? all start all.size
    return ⟨kept⟩
  else return ⟨all⟩

end Reservoir

/-- The granules of a frame whose main data is known, or is missing. -/
def coded? (h : Header) (side : SideInfo) :
    Option (Array UInt8) → Option (Except AudioError (List (List CheckedChannel)))
  | some data => mainData? h side data
  | none => some (.ok (List.replicate 2 (List.replicate h.channels {})))

/-- A granule of a frame, which has its own part of the bytes. -/
def playGranule? (h : Header) (side : SideInfo) (coded : List (List CheckedChannel)) (granule : Nat)
    (s : Channels) (out : FrameBytes) : Option (Channels × FrameBytes) := do
  let gs ← side.granules[granule]?
  let cs ← coded[granule]?
  let bytes ← ofFn? bytesPerGranule fun i => out[bytesPerGranule * granule + i]?
  let p ← s.play? h gs cs bytes
  let out ← writes? out ((List.range' (bytesPerGranule * granule) bytesPerGranule).zip p.2.toList)
  return (p.1, out)

def playFrame? (h : Header) (side : SideInfo) (coded : List (List CheckedChannel)) (s : Channels) (out : FrameBytes) :
    Option (Channels × FrameBytes) := do
  let p ← playGranule? h side coded 0 s out
  playGranule? h side coded 1 p.1 p.2

def FrameDecoder.decode? (d : FrameDecoder) (f : Frame) (out : FrameBytes) :
    Option (Except AudioError (Array UInt8) × FrameDecoder) := do
  let side ← f.side?
  let fresh ← f.fresh?
  let data ← d.reservoir.dataFrom? side.mainBegin fresh
  let reservoir ← d.reservoir.push? fresh
  match ← coded? f.header side data with
  | .error e => return (.error e, { d with reservoir })
  | .ok coded =>
    let p ← playFrame? f.header side coded d.channels out
    return (.ok p.2.toArray, { reservoir, channels := p.1 })

namespace Reservoir

theorem dataFrom?_eq (r : Reservoir) (back : Nat) (fresh : Array UInt8) :
    r.dataFrom? back fresh = some (r.data? back fresh) := by
  unfold dataFrom? data?
  by_cases hback : back ≤ r.bytes.size
  · rw [if_pos hback, if_pos hback, minus?_eq hback, some_bind, slice?_eq (by omega) (Nat.le_refl _)]
    rfl
  · rw [if_neg hback, if_neg hback]
    rfl

theorem push?_eq (r : Reservoir) (fresh : Array UInt8) : r.push? fresh = some (r.push fresh) := by
  unfold push? push
  dsimp only
  by_cases hfull : capacity < (r.bytes ++ fresh).size
  · rw [if_pos hfull, minus?_eq hfull.le, some_bind, slice?_eq (by omega) (Nat.le_refl _)]
    rfl
  · have hall : (r.bytes ++ fresh).size - capacity = 0 := by omega
    rw [if_neg hfull, hall, Array.extract_size]
    rfl

end Reservoir

/-- A channel without a line, in tables of fixed sizes. -/
theorem checked_empty : CodedChannel.checked {} = {} := by
  have hzeros : ∀ {α : Type} (a : α) (n : Nat), (Vector.ofFn fun i : Fin n => (#[] : Array α).getD i a) =
      Vector.replicate n a := by
    intro α a n
    refine Vector.ext fun i hi => ?_
    rw [Vector.getElem_ofFn, Vector.getElem_replicate]
    rfl
  change (⟨⟨Vector.ofFn fun i => (#[] : Array Nat).getD i 0, Vector.ofFn fun i => (#[] : Array Nat).getD i 0⟩,
    Vector.ofFn fun i => (#[] : Array Int).getD i 0, 0⟩ : CheckedChannel) = _
  rw [hzeros, hzeros, hzeros]

theorem coded?_eq (f : Frame) (r : Reservoir) :
    coded? f.header f.side (r.data? f.side.mainBegin f.fresh) = some ((f.coded r).map checkedGranules) := by
  unfold Frame.coded
  cases r.data? f.side.mainBegin f.fresh with
  | some data => exact mainData?_eq f.side_valid data
  | none =>
    change some (ok _) = some (ok (checkedGranules (silence f.header)))
    rw [checkedGranules, silence, map_replicate, map_replicate, checked_empty]

theorem Frame.fits_coded {coded : List CodedGranule} (h : f.coded r = .ok coded) :
    ∀ cs ∈ coded, cs.length = f.header.channels ∧ ∀ c ∈ cs, c.Fits := by
  unfold Frame.coded at h
  split at h
  · exact fits_mainData f.side_valid h
  · cases h
    intro cs hcs
    obtain rfl := (mem_replicate.mp hcs).2
    refine ⟨length_replicate, fun c hc => ?_⟩
    obtain rfl := (mem_replicate.mp hc).2
    exact ⟨Nat.le_refl _, Nat.zero_le _⟩

theorem toList_granuleBytes (h : sound.length = lineCount) :
    (granuleBytes sound).toList = (soundBytes sound).toList := by
  refine toList_ofFn_getD ?_ 0
  rw [size_soundBytes, h]
  rfl

theorem soundBytes_append (sound later : List (Int16 × Int16)) :
    (soundBytes (sound ++ later)).toList = (soundBytes sound).toList ++ (soundBytes later).toList := flatMap_append

section

variable {h : Header} {side : SideInfo} (hside : side.Valid h.channels) {coded : List CodedGranule}
  (hcoded : ∀ cs ∈ coded, cs.length = h.channels ∧ ∀ c ∈ cs, c.Fits)

include hside hcoded

theorem playGranule?_eq (hgranule : granule < 2)
    (hgs : side.granules[granule]? = some gs) (hcs : coded[granule]? = some cs) (s : Channels) (out : FrameBytes) :
    playGranule? h side (checkedGranules coded) granule s out =
      some ((s.play h gs cs).2, laid out (bytesPerGranule * granule) (soundBytes (s.play h gs cs).1).toList) := by
  have hroom : bytesPerGranule * granule + bytesPerGranule ≤ bytesPerFrame := by
    simp only [bytesPerGranule, bytesPerFrame, lineCount]
    omega
  have hmem := mem_of_getElem? hgs
  obtain ⟨hlength, hfits⟩ := hcoded cs (mem_of_getElem? hcs)
  have hsound := s.length_play h gs cs
  have hpart : ofFn? bytesPerGranule (fun i => out[bytesPerGranule * granule + i]?) =
      some (Vector.ofFn fun i => out.get ⟨bytesPerGranule * granule + i.val, by omega⟩) := by
    refine ofFn?_eq fun i => ?_
    have hlt : bytesPerGranule * granule + i.val < bytesPerFrame := by omega
    exact Vector.getElem?_eq_getElem hlt
  rw [playGranule?, hgs, some_bind, checkedGranules, List.getElem?_map, hcs, Option.map_some, some_bind, hpart,
    some_bind, s.play?_eq h (hside.infos gs hmem) (hside.valid gs hmem) hlength hfits, some_bind,
    toList_granuleBytes hsound, writes?_zip _ hroom]
  · rfl
  · rw [Array.length_toList, size_soundBytes, hsound]
    rfl

/-- **A frame is played within its bytes and fills them.** -/
theorem playFrame?_eq (hlength : coded.length = 2) (s : Channels) (out : FrameBytes) :
    ∃ bytes : FrameBytes, playFrame? h side (checkedGranules coded) s out =
        some ((s.playAll h (side.granules.zip coded)).2, bytes) ∧
      bytes.toArray = soundBytes (s.playAll h (side.granules.zip coded)).1 := by
  obtain ⟨g₀, g₁, hgs⟩ := length_eq_two.mp hside.granules
  obtain ⟨c₀, c₁, hcs⟩ := length_eq_two.mp hlength
  have hfirst : side.granules[0]? = some g₀ ∧ coded[0]? = some c₀ := by
    rw [hgs, hcs]
    exact ⟨rfl, rfl⟩
  have hsecond : side.granules[1]? = some g₁ ∧ coded[1]? = some c₁ := by
    rw [hgs, hcs]
    exact ⟨rfl, rfl⟩
  have hplay : s.playAll h (side.granules.zip coded) = ((s.play h g₀ c₀).1 ++ ((s.play h g₀ c₀).2.play h g₁ c₁).1,
      ((s.play h g₀ c₀).2.play h g₁ c₁).2) := by
    rw [hgs, hcs]
    change ((s.play h g₀ c₀).1 ++ (((s.play h g₀ c₀).2.play h g₁ c₁).1 ++ []), _) = _
    rw [append_nil]
    rfl
  have hbytes : ∀ s : Channels, ∀ gs cs, (soundBytes (s.play h gs cs).1).toList.length = bytesPerGranule := by
    intro s gs cs
    rw [Array.length_toList, size_soundBytes, s.length_play]
    rfl
  have hlaid := laid_laid out 0 (soundBytes (s.play h g₀ c₀).1).toList
    (soundBytes ((s.play h g₀ c₀).2.play h g₁ c₁).1).toList
  rw [hbytes, Nat.zero_add, ← soundBytes_append] at hlaid
  rw [playFrame?, playGranule?_eq hside hcoded (by decide) hfirst.1 hfirst.2, some_bind,
    playGranule?_eq hside hcoded (by decide) hsecond.1 hsecond.2, hplay, Nat.mul_zero, Nat.mul_one, hlaid]
  refine ⟨_, rfl, ?_⟩
  dsimp only
  refine toArray_laid out ?_
  rw [Array.length_toList, size_soundBytes, length_append, Channels.length_play, Channels.length_play]
  rfl

end

theorem Frame.side?_eq (h : f.header.crcSize + f.header.sideInfoSize ≤ f.body.size) : f.side? = some f.side := by
  rw [side?, slice?_eq (Nat.le_add_right _ _) h]
  rfl

theorem Frame.fresh?_eq (h : f.header.crcSize + f.header.sideInfoSize ≤ f.body.size) :
    f.fresh? = some f.fresh := slice?_eq h (Nat.le_refl _)

/-- **Checked accesses never stop the decoder.** -/
theorem FrameDecoder.decode?_eq (d : FrameDecoder) (h : f.header.crcSize + f.header.sideInfoSize ≤ f.body.size)
    (out : FrameBytes) : d.decode? f out = some (d.decode f) := by
  rw [decode?, Frame.side?_eq h, some_bind, Frame.fresh?_eq h, some_bind, Reservoir.dataFrom?_eq, some_bind,
    Reservoir.push?_eq, some_bind, coded?_eq, some_bind]
  obtain ⟨coded, hcoded⟩ := f.exists_coded d.reservoir
  obtain ⟨bytes, hplay, hbytes⟩ := playFrame?_eq f.side_valid (Frame.fits_coded hcoded) (Frame.length_coded hcoded)
    d.channels out
  rw [hcoded, decode_ok hcoded]
  change (playFrame? f.header f.side (checkedGranules coded) d.channels out >>= fun p =>
    some (ok p.2.toArray, FrameDecoder.mk (d.reservoir.push f.fresh) p.1)) = _
  rw [hplay, some_bind]
  dsimp only
  rw [hbytes]
  rfl

/-! ## Every header -/

/-- A joint frame of the greatest size, with all bits of its body set. -/
def brimmingFrame : Frame := ⟨0, ⟨320000, .hz32000, true, true, .joint, 3⟩, Array.replicate 1437 0xff⟩

end GameMedia.Audio
