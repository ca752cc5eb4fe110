import GameMedia.Proofs.Audio.Carry
import GameMedia.Proofs.Audio.Streams

/-!
# Positions

A decoder has three counters: the position in the sound, the cursor in the latest frame, and the position of its source.
`OnTrack` says how they belong together, and which bytes of sound are left. It holds when a stream is opened, reads and
seeks keep it, and what a position means follows from it.
-/

namespace GameMedia.Audio

open List Nat Prod ByteSource

variable {σ : Type}

/-! ## Places -/

def Before (data : List UInt8) (At : σ → Nat → Prop) (r : FrameReader σ) (rest : List Frame) : Prop :=
  ∃ pos, Placed At r pos ∧ Frames data pos rest

/-- The latest frame of the decoder is `f`, decoded with the state `s`, and `rest` are left. -/
structure Holding (data : List UInt8) (At : σ → Nat → Prop) (s : FrameDecoder) (f : Frame) (rest : List Frame)
    (d : Decoder σ) : Prop where
  reader : Before data At d.frames rest
  pcm : (s.decode f).1 = .ok d.pcm
  state : d.state = (s.decode f).2

structure Playing (data : List UInt8) (At : σ → Nat → Prop) (first past : List Frame) (f : Frame) (rest : List Frame)
    (d : Decoder σ) : Prop extends Holding data At (({} : FrameDecoder).after past) f rest d where
  cursor : d.cursor ≤ d.pcm.size
  pos : d.pos = bytesPerFrame * (first.length + past.length) + d.cursor

/-- The decoder is behind the last of `n` frames. -/
structure Ended (data : List UInt8) (At : σ → Nat → Prop) (n : Nat) (d : Decoder σ) : Prop where
  reader : Before data At d.frames []
  pcm : d.pcm = #[]
  cursor : d.cursor = 0
  pos : d.pos = bytesPerFrame * n

/-- **The counters of a decoder belong together.** It began behind the frames `first` of a stream with the frames `fs`,
and the given bytes of sound are left. -/
inductive OnTrack (data : List UInt8) (At : σ → Nat → Prop) (fs first : List Frame) : Decoder σ → List UInt8 → Prop
  | playing {d : Decoder σ} {past rest : List Frame} {f : Frame} : fs = first ++ past ++ f :: rest →
    Playing data At first past f rest d → OnTrack data At fs first d (d.pcm.toList.drop d.cursor ++ d.state.sound rest)
  | ended {d : Decoder σ} : Ended data At fs.length d → OnTrack data At fs first d []

section

variable {data : List UInt8} {At : σ → Nat → Prop} {fs first past rest : List Frame} {f : Frame} {s : FrameDecoder}
  {d d' : Decoder σ} {bytes : List UInt8}

theorem Holding.size (h : Holding data At s f rest d) : d.pcm.size = bytesPerFrame := FrameDecoder.size_decode h.pcm

/-- As many bytes are left as there are behind the position. -/
theorem OnTrack.length (h : OnTrack data At fs first d bytes) :
    d.pos + bytes.length = bytesPerFrame * fs.length := by
  cases h with
  | ended h => rw [h.pos, length_nil, Nat.add_zero]
  | playing hfs h =>
    have hcursor := h.cursor
    have hsize := h.size
    simp only [h.pos, hfs, FrameDecoder.length_sound, length_append, length_drop, Array.length_toList, length_cons,
      Nat.mul_add, Nat.mul_one]
    omega

theorem OnTrack.cursor_le (h : OnTrack data At fs first d bytes) : d.cursor ≤ d.pcm.size := by
  cases h with
  | ended h => rw [h.cursor]; exact Nat.zero_le _
  | playing _ h => exact h.cursor

theorem OnTrack.size_pcm (h : OnTrack data At fs first d bytes) : d.pcm.size = 0 ∨ d.pcm.size = bytesPerFrame := by
  cases h with
  | ended h => rw [h.pcm]; exact .inl rfl
  | playing _ h => exact .inr h.size

end

/-! ## Advancing -/

theorem exists_decode (d : Decoder σ) (f : Frame) : ∃ pcm, (d.state.decode f).1 = .ok pcm ∧
    d.decode f = (.ok (), { d with state := (d.state.decode f).2, pcm, cursor := 0 }) := by
  obtain ⟨pcm, hpcm⟩ := d.state.exists_decode f
  refine ⟨pcm, hpcm, ?_⟩
  rw [Decoder.decode, show d.state.decode f = (.ok pcm, (d.state.decode f).2) from Prod.ext hpcm rfl]

section

variable [ByteSource σ] {data : List UInt8} {At : σ → Nat → Prop} {fs first past rest : List Frame} {f : Frame}
  {s : FrameDecoder} {r r' : FrameReader σ} {d d' : Decoder σ} {bytes : List UInt8} {more : Bool} {n q pos : Nat}
  {source' : σ}

theorem advance_error (h : d.frames.next? = (.error e, r)) :
    d.advance = (.error e, { d with frames := r }) := by
  rw [Decoder.advance, h]

theorem advance_none (h : d.frames.next? = (.ok none, r)) :
    d.advance = (.ok false, { d with frames := r, pcm := #[], cursor := 0 }) := by
  rw [Decoder.advance, h]

theorem advance_some (h : d.frames.next? = (.ok (some f), r)) : ∃ pcm, (d.state.decode f).1 = .ok pcm ∧
    d.advance = (.ok true, { d with frames := r, state := (d.state.decode f).2, pcm, cursor := 0 }) := by
  obtain ⟨pcm, hpcm, hdecode⟩ := exists_decode { d with frames := r } f
  refine ⟨pcm, hpcm, ?_⟩
  rw [Decoder.advance, h]
  dsimp only
  rw [hdecode]

/-- Before the frames that are left, a reader finds the first of them, unless the source fails. -/
theorem Delivers.next?_before (h : Delivers data At Fault) (hr : Before data At r rest) :
    Tells At Fault r.next? (.ok rest.head?) (Before data At · rest.tail) := by
  obtain ⟨pos, hpos, hframes⟩ := hr
  rcases h.next? hpos with hfailed | ⟨hnext, hr'⟩
  · exact .inl hfailed
  · refine .inr ?_
    cases hframes with
    | done hnone => exact ⟨hnext.trans hnone, _, hr', .done (nextFrame_end (nextStop_of_none hnone))⟩
    | next hsome hrest => exact ⟨hnext.trans hsome, _, nextStop_of_some hsome ▸ hr', hrest⟩

/-- A call that a source may let fail: it fails, and the source has failures, or it succeeds and comes to what is told. -/
def Meets {ε β τ : Type} (Fault : SourceError → Prop) (x : Except ε β × τ) (Q : β → τ → Prop) : Prop :=
  (∃ e t, x = (.error e, t) ∧ ∃ e', Fault e') ∨ ∃ b t, x = (.ok b, t) ∧ Q b t

section

variable {ε β τ : Type} {x : Except ε β × τ} {Q R : β → τ → Prop}

theorem Meets.ok (h : Meets Fault x Q) (hx : x = (.ok b, t)) : Q b t := by
  subst hx
  rcases h with ⟨e, t', he, -⟩ | ⟨b', t', hok, hq⟩
  · cases he
  · cases hok
    exact hq

theorem Meets.exists (h : Meets (fun _ => False) x Q) : ∃ b t, x = (.ok b, t) ∧ Q b t := by
  rcases h with ⟨-, -, -, e', hfalse⟩ | hok
  · exact hfalse.elim
  · exact hok

theorem Meets.imp (h : Meets Fault x Q) (hqr : ∀ b t, Q b t → R b t) : Meets Fault x R := by
  refine Or.imp_right ?_ h
  rintro ⟨b, t, hok, hq⟩
  exact ⟨b, t, hok, hqr b t hq⟩

end

/-- The first of the frames that are left becomes the latest. -/
theorem Delivers.advance (h : Delivers data At Fault) (hd : Before data At d.frames rest) :
    Meets Fault d.advance fun more d' => d'.cursor = 0 ∧ d'.pos = d.pos ∧ d'.offsets = d.offsets ∧ match rest with
      | [] => more = false ∧ Before data At d'.frames [] ∧ d'.pcm = #[]
      | f :: rest => more = true ∧ Holding data At d.state f rest d' := by
  rcases h.next?_before hd with ⟨e, q, he, hfault, -⟩ | ⟨hfound, hr'⟩
  · exact .inl ⟨_, _, advance_error (Prod.ext he rfl), e, hfault⟩
  · cases rest with
    | nil => exact .inr ⟨_, _, advance_none (Prod.ext hfound rfl), rfl, rfl, rfl, rfl, hr', rfl⟩
    | cons f rest =>
      obtain ⟨pcm, hpcm, hadvance⟩ := advance_some (Prod.ext hfound rfl)
      exact .inr ⟨_, _, hadvance, rfl, rfl, rfl, rfl, hr', hpcm, rfl⟩

/-- The frames up to one are decoded. -/
theorem Delivers.advanceBy (h : Delivers data At Fault) (hd : Before data At d.frames (past ++ f :: rest)) :
    Meets Fault (d.advanceBy (past.length + 1)) fun _ d' =>
      Holding data At (d.state.after past) f rest d' ∧ d'.offsets = d.offsets := by
  induction past generalizing d with
  | nil =>
    rw [length_nil, Decoder.advanceBy]
    rcases h.advance hd with ⟨e, d₁, he, hfault⟩ | ⟨more, d₁, hadvance, -, -, hoffsets, -, hholding⟩
    · rw [he]
      exact .inl ⟨_, _, rfl, hfault⟩
    · rw [hadvance]
      exact .inr ⟨_, _, rfl, hholding, hoffsets⟩
  | cons g past ih =>
    rw [length_cons, Decoder.advanceBy]
    rcases h.advance hd with ⟨e, d₁, he, hfault⟩ | ⟨more, d₁, hadvance, -, -, hoffsets, -, hholding⟩
    · rw [he]
      exact .inl ⟨_, _, rfl, hfault⟩
    · rw [hadvance]
      have hlast := ih hholding.reader
      rwa [hholding.state, ← FrameDecoder.after_cons, hoffsets] at hlast

/-- Where all of the latest frame was read, a decoder goes to the next frame, or is at the end. -/
theorem OnTrack.advance (h : Delivers data At Fault) (hd : OnTrack data At fs first d bytes)
    (hread : d.cursor = d.pcm.size) : Meets Fault d.advance fun more d' => d'.offsets = d.offsets ∧
      (more = false ∧ OnTrack data At fs first d' [] ∧ bytes = [] ∨
        more = true ∧ OnTrack data At fs first d' bytes ∧ d'.cursor < d'.pcm.size) := by
  cases hd with
  | ended hd =>
    refine (h.advance hd.reader).imp ?_
    rintro more d' ⟨hcursor, hpos, hoffsets, hmore, hr', hpcm⟩
    exact ⟨hoffsets, .inl ⟨hmore, .ended ⟨hr', hpcm, hcursor, hpos.trans hd.pos⟩, rfl⟩⟩
  | @playing past rest f hfs hd =>
    have hnone : d.pcm.toList.drop d.cursor = [] := by simp [hread]
    have hpos : d.pos = bytesPerFrame * (first.length + past.length + 1) := by
      rw [hd.pos, hread, hd.size, mul_succ]
    rw [hnone, nil_append]
    refine (h.advance hd.reader).imp fun more d' hd' => ?_
    cases rest with
    | nil =>
      obtain ⟨hcursor, hpos', hoffsets, hmore, hr', hpcm⟩ := hd'
      refine ⟨hoffsets, .inl ⟨hmore, .ended ⟨hr', hpcm, hcursor, ?_⟩, rfl⟩⟩
      simp only [hpos', hpos, hfs, length_append, length_cons, length_nil]
    | cons g rest =>
      obtain ⟨hcursor, hpos', hoffsets, hmore, hholding⟩ := hd'
      have hstate : d.state = ({} : FrameDecoder).after (past ++ [f]) := by
        rw [hd.state, FrameDecoder.after_append, FrameDecoder.after_cons]
        rfl
      have hsound : d.state.sound (g :: rest) = d'.pcm.toList.drop d'.cursor ++ d'.state.sound rest := by
        rw [FrameDecoder.sound_cons hholding.pcm, hcursor, drop_zero, hholding.state]
      have hplaying : Playing data At first (past ++ [f]) g rest d' := by
        refine ⟨hstate ▸ hholding, by rw [hcursor]; exact Nat.zero_le _, ?_⟩
        rw [hpos', hpos, hcursor, length_append, ← Nat.add_assoc]
        rfl
      refine ⟨hoffsets, .inr ⟨hmore, ?_, ?_⟩⟩
      · rw [hsound]
        exact .playing (by rw [hfs]; simp) hplaying
      · rw [hcursor, hholding.size]
        decide

/-! ## Reading -/

omit [ByteSource σ] in
theorem unread_prefix (d : Decoder σ) (n : Nat) : (d.unread n).toList <+: d.pcm.toList.drop d.cursor := by
  rw [Decoder.unread, Array.toList_extract, extract_eq_take_drop]
  exact take_prefix _ _

omit [ByteSource σ] in
/-- What is read of the latest frame is the first of what is left. -/
theorem OnTrack.skip (hd : OnTrack data At fs first d bytes) (n : Nat) : ∃ bytes',
    OnTrack data At fs first (d.skip (d.unread n).size) bytes' ∧ bytes = (d.unread n).toList ++ bytes' := by
  cases hd with
  | ended hd =>
    have hempty : d.unread n = #[] := by simp [Decoder.unread, hd.pcm]
    rw [hempty]
    exact ⟨[], .ended ⟨hd.reader, hd.pcm, hd.cursor, hd.pos⟩, rfl⟩
  | playing hfs hd =>
    have hcursor := hd.cursor
    have hprefix := unread_prefix d n
    have hsize := hprefix.length_le
    rw [length_drop, Array.length_toList, Array.length_toList] at hsize
    refine ⟨_, .playing hfs ⟨⟨hd.reader, hd.pcm, hd.state⟩, ?_, ?_⟩, ?_⟩
    · change d.cursor + (d.unread n).size ≤ d.pcm.size
      omega
    · change d.pos + (d.unread n).size = _ + (d.cursor + (d.unread n).size)
      rw [hd.pos, Nat.add_assoc]
    · change _ = _ ++ (d.pcm.toList.drop (d.cursor + (d.unread n).size) ++ d.state.sound _)
      rw [← append_assoc, ← drop_drop, ← Array.length_toList, prefix_iff_eq_append.mp hprefix]

omit [ByteSource σ] in
theorem unread_ne_empty (hn : n ≠ 0) (hlt : d.cursor < d.pcm.size) : d.unread n ≠ #[] := by
  intro hempty
  have := congrArg Array.size hempty
  simp only [Decoder.unread, Array.size_extract, List.size_toArray, length_nil] at this
  omega

/-- **A read gives the first of the bytes that are left.** It gives none only if none are wanted or left. -/
theorem OnTrack.read (h : Delivers data At Fault) (hd : OnTrack data At fs first d bytes) (n : Nat) :
    Meets Fault (d.read n) fun out d' => ∃ bytes', OnTrack data At fs first d' bytes' ∧ d'.offsets = d.offsets ∧
      bytes = out.toList ++ bytes' ∧ (out = #[] → n = 0 ∨ bytes = []) := by
  unfold Decoder.read
  split
  · next hn => exact .inr ⟨_, _, rfl, bytes, hd, rfl, rfl, fun _ => .inl hn⟩
  next hn =>
  split
  · next hall =>
    rcases hd.advance h hall with
      ⟨e, d₁, he, hfault⟩ | ⟨more, d₁, hadvance, hoffsets, ⟨rfl, hd', rfl⟩ | ⟨rfl, hd', hlt⟩⟩
    · rw [he]
      exact .inl ⟨_, _, rfl, hfault⟩
    · rw [hadvance]
      exact .inr ⟨_, _, rfl, [], hd', hoffsets, rfl, fun _ => .inr rfl⟩
    · rw [hadvance]
      obtain ⟨bytes', hskip, hbytes⟩ := hd'.skip n
      exact .inr ⟨_, _, rfl, bytes', hskip, hoffsets, hbytes, fun hempty => absurd hempty (unread_ne_empty hn hlt)⟩
  · next hall =>
    obtain ⟨bytes', hskip, hbytes⟩ := hd.skip n
    have hlt := lt_of_le_of_ne hd.cursor_le hall
    exact .inr ⟨_, _, rfl, bytes', hskip, rfl, hbytes, fun hempty => absurd hempty (unread_ne_empty hn hlt)⟩

omit [ByteSource σ] in
theorem cursor_skip_all (h : d.cursor ≤ d.pcm.size) :
    (d.skip (d.unread (d.pcm.size - d.cursor)).size).cursor = d.pcm.size := by
  simp only [Decoder.skip, Decoder.unread, Array.size_extract]
  omega

/-- **Reading to the end gives all the bytes that are left.** -/
theorem OnTrack.readAllFrom (h : Steady data At) (hd : OnTrack data At fs first d bytes) (gathered : Array UInt8) :
    ∃ d', d.readAllFrom gathered = (gathered ++ bytes.toArray, none, d') := by
  fun_induction Decoder.readAllFrom d gathered generalizing bytes with
  | case1 d gathered out e d' =>
    rename_i hadvance
    obtain ⟨bytes', hskip, -⟩ := hd.skip (d.pcm.size - d.cursor)
    obtain ⟨more, t, ht, -⟩ := (hskip.advance h (cursor_skip_all hd.cursor_le)).exists
    rw [hadvance] at ht
    cases ht
  | case2 d gathered out d' =>
    rename_i hadvance
    obtain ⟨bytes', hskip, rfl⟩ := hd.skip (d.pcm.size - d.cursor)
    obtain ⟨-, ⟨-, -, rfl⟩ | ⟨hmore, -⟩⟩ := (hskip.advance h (cursor_skip_all hd.cursor_le)).ok hadvance
    · exact ⟨d', by simp [out]⟩
    · cases hmore
  | case3 d gathered out d' hadvance hlt hlt' =>
    rename_i ih
    obtain ⟨bytes', hskip, rfl⟩ := hd.skip (d.pcm.size - d.cursor)
    obtain ⟨-, ⟨hmore, -⟩ | ⟨-, htrack, -⟩⟩ := (hskip.advance h (cursor_skip_all hd.cursor_le)).ok hadvance
    · cases hmore
    · obtain ⟨d'', hall⟩ := ih htrack
      exact ⟨d'', by rw [hall, ← append_toArray, Array.toArray_toList, Array.append_assoc]⟩

/-! ## Opening -/

/-- A decoder that was opened before some frames is in the first of them. -/
theorem Delivers.playing_of_ofSource (h : Delivers data At Fault) (hsource : Before data At ⟨source, 0⟩ fs)
    (hopen : Decoder.ofSource source = (.ok d, source')) :
    ∃ f rest, fs = f :: rest ∧ Playing data At [] [] f rest d ∧ d.cursor = 0 := by
  unfold Decoder.ofSource at hopen
  rcases hnext : FrameReader.next? (⟨source, 0⟩ : FrameReader σ) with ⟨e | found, r'⟩
  · rw [hnext] at hopen
    cases hopen
  · obtain ⟨hfound, hr'⟩ := (h.next?_before hsource).ok hnext
    rw [hnext] at hopen
    cases hfound
    cases fs with
    | nil => cases hopen
    | cons f rest =>
      obtain ⟨pcm, hpcm, hdecode⟩ := exists_decode { frames := r', sampleRate := f.header.rate.hertz } f
      dsimp only [head?_cons] at hopen
      rw [hdecode] at hopen
      cases hopen
      exact ⟨f, rest, rfl, ⟨⟨hr', hpcm, rfl⟩, Nat.zero_le _, rfl⟩, rfl⟩

/-- **A decoder that was opened is in the first frame**, and knows where all frames are. -/
theorem Seekable.playing_of_ofScanned (h : Seekable data At Fault) (hsource : At source q)
    (hopen : Decoder.ofScanned source = (.ok d, source')) :
    ∃ f rest, Frames data 0 (f :: rest) ∧ Playing data At [] [] f rest d ∧ d.cursor = 0 ∧
      d.offsets = some ((f :: rest).map Frame.offset).toArray := by
  unfold Decoder.ofScanned at hopen
  rcases h.seekStart 0 hsource with ⟨e, s₁, q₁, hs₁, -⟩ | ⟨s₁, hs₁, hat₁⟩
  · rw [hs₁] at hopen
    exact absurd hopen (by simp)
  · rw [hs₁] at hopen
    dsimp only at hopen
    split at hopen
    · exact absurd hopen (by simp)
    · next offsets r hscan =>
      have hplaced : Placed At ⟨s₁, 0⟩ 0 := ⟨hat₁, rfl⟩
      obtain ⟨fs, q', hframes, hoffsets, hr⟩ := h.frames_of_scan hplaced hscan
      rcases h.seekStart 0 hr.source with ⟨e, s₂, q₂, hs₂, -⟩ | ⟨s₂, hs₂, hat₂⟩
      · rw [hs₂] at hopen
        exact absurd hopen (by simp)
      · rw [hs₂] at hopen
        dsimp only at hopen
        split at hopen
        · exact absurd hopen (by simp)
        · next d₁ s₃ hfirst =>
          have hbefore : Before data At ⟨s₂, 0⟩ fs := ⟨0, ⟨hat₂, rfl⟩, hframes⟩
          obtain ⟨f, rest, rfl, hd₁, hcursor⟩ := h.playing_of_ofSource hbefore hfirst
          obtain ⟨hd, -⟩ := mk.inj hopen
          cases hd
          refine ⟨f, rest, hframes, ⟨⟨hd₁.reader, hd₁.pcm, hd₁.state⟩, hd₁.cursor, hd₁.pos⟩, hcursor, ?_⟩
          rw [hoffsets]
          simp

/-! ## Seeking -/

omit [ByteSource σ] in
theorem OnTrack.source (hd : OnTrack data At fs first d bytes) : ∃ q, At d.frames.source q := by
  cases hd with
  | ended hd | playing _ hd => exact hd.reader.imp fun q hq => hq.1.source

theorem seekTo_eq (h : d.offsets = some offsets) (pos : Nat) :
    d.seekTo pos = if pos / bytesPerFrame < offsets.size
      then d.seekInto (pos / bytesPerFrame) (offsets.getD (pos / bytesPerFrame - 1) 0) pos
      else d.seekPastEnd (bytesPerFrame * offsets.size) := by
  rw [Decoder.seekTo, h]

/-- The frames before one, and the one right before it apart. -/
theorem exists_split (h : i < fs.length) : ∃ first past f rest, fs = first ++ past ++ f :: rest ∧
    i = first.length + past.length ∧ past.length = min 1 i := by
  refine ⟨fs.take (i - 1), (fs.take i).drop (i - 1), fs[i], fs.drop (i + 1), ?_, ?_, ?_⟩
  · have hbefore : fs.take (i - 1) ++ (fs.take i).drop (i - 1) = fs.take i := by
      conv_rhs => rw [← take_append_drop (i - 1) (fs.take i), take_take, Nat.min_eq_left (sub_le i 1)]
    rw [hbefore, ← drop_eq_getElem_cons h, take_append_drop]
  · simp only [length_take, length_drop]
    omega
  · simp only [length_take, length_drop]
    omega

theorem seekTo_inside_eq (hframes : Frames data 0 fs) (hoffsets : d.offsets = some (fs.map Frame.offset).toArray)
    (hfs : fs = first ++ past ++ f :: rest) (hpos : pos / bytesPerFrame = first.length + past.length)
    (hpast : past.length = min 1 (pos / bytesPerFrame)) :
    ∃ start, Frames data start (past ++ f :: rest) ∧ d.seekTo pos = d.seekInto (pos / bytesPerFrame) start pos ∧
      (if 0 < pos / bytesPerFrame then 2 else 1) = past.length + 1 := by
  -- the frame that the decoder begins with
  obtain ⟨g, more, hg⟩ : ∃ g more, past ++ f :: rest = g :: more := by cases past <;> exact ⟨_, _, rfl⟩
  have hstart : (fs.map Frame.offset).toArray.getD (pos / bytesPerFrame - 1) 0 = g.offset := by
    have hindex : pos / bytesPerFrame - 1 = first.length := by omega
    rw [hindex, hfs, append_assoc, hg]
    simp
  have hinside : pos / bytesPerFrame < (fs.map Frame.offset).toArray.size := by
    rw [hpos, hfs]
    simp
  refine ⟨g.offset, ?_, ?_, ?_⟩
  · rw [hg]
    rw [hfs, append_assoc, hg] at hframes
    exact hframes.from_offset
  · rw [seekTo_eq hoffsets, if_pos hinside, hstart]
  · split <;> omega

/-- **A seek is in the frame of its position**, and began with the one before it. Past the last frame it is at the end. -/
theorem Seekable.seekTo (h : Seekable data At Fault) (hsource : At d.frames.source q) (hframes : Frames data 0 fs)
    (hoffsets : d.offsets = some (fs.map Frame.offset).toArray) (pos : Nat) :
    Meets Fault (d.seekTo pos) fun p d' => d'.offsets = d.offsets ∧
      ((∃ first past f rest, fs = first ++ past ++ f :: rest ∧ pos / bytesPerFrame = first.length + past.length ∧
        past.length = min 1 (pos / bytesPerFrame) ∧ p = pos ∧ d'.pos = pos ∧ d'.cursor = pos % bytesPerFrame ∧
        Playing data At first past f rest d') ∨
      fs.length ≤ pos / bytesPerFrame ∧ p = bytesPerFrame * fs.length ∧ Ended data At fs.length d') := by
  by_cases hpos : pos / bytesPerFrame < fs.length
  · obtain ⟨first, past, f, rest, hfs, hindex, hpast⟩ := exists_split hpos
    obtain ⟨start, hstart, hinto, hcount⟩ := seekTo_inside_eq (d := d) hframes hoffsets hfs hindex hpast
    rw [hinto, Decoder.seekInto, hcount]
    rcases h.seekStart start hsource with ⟨e, s', q', hs, hfault, -⟩ | ⟨s', hs, hat⟩
    · rw [hs]
      exact .inl ⟨_, _, rfl, e, hfault⟩
    · rw [hs]
      dsimp only
      have hbefore : Before data At ⟨s', start⟩ (past ++ f :: rest) := ⟨start, ⟨hat, rfl⟩, hstart⟩
      rcases h.advanceBy (d := { d with state := {}, frames := ⟨s', start⟩ }) hbefore with
        ⟨e, d₁, he, hfault⟩ | ⟨_, d₁, hadvance, hholding, hoffsets₁⟩
      · rw [he]
        exact .inl ⟨_, _, rfl, hfault⟩
      · rw [hadvance]
        refine .inr ⟨_, _, rfl, hoffsets₁, .inl ⟨first, past, f, rest, hfs, hindex, hpast, rfl, rfl, rfl,
          ⟨hholding.reader, hholding.pcm, hholding.state⟩, ?_, ?_⟩⟩
        · change pos % bytesPerFrame ≤ d₁.pcm.size
          rw [hholding.size]
          exact (mod_lt _ (by decide)).le
        · rw [← hindex]
          exact (div_add_mod _ _).symm
  · have hsize : (fs.map Frame.offset).toArray.size = fs.length := by simp
    rw [seekTo_eq hoffsets, hsize, if_neg hpos, Decoder.seekPastEnd]
    rcases h.seekEnd hsource with ⟨e, s', q', hs, hfault, -⟩ | ⟨s', hs, hat⟩
    · rw [hs]
      exact .inl ⟨_, _, rfl, e, hfault⟩
    · rw [hs]
      have hbefore : Before data At ⟨s', data.length⟩ [] := ⟨_, ⟨hat, rfl⟩, .done (nextFrame_end le_rfl)⟩
      exact .inr ⟨_, _, rfl, rfl, .inr ⟨Nat.not_lt.mp hpos, rfl, hbefore, rfl, rfl, rfl⟩⟩

/-- **Seeking goes to the position, or to the end if that is before it.** -/
theorem OnTrack.seekTo (h : Serves data At) (hframes : Frames data 0 fs)
    (hoffsets : d.offsets = some (fs.map Frame.offset).toArray) (hd : OnTrack data At fs first d bytes) (pos : Nat) :
    ∃ first' d' bytes', d.seekTo pos = (.ok (min pos (bytesPerFrame * fs.length)), d') ∧
      OnTrack data At fs first' d' bytes' ∧ d'.pos = min pos (bytesPerFrame * fs.length) ∧ d'.offsets = d.offsets := by
  obtain ⟨q, hsource⟩ := hd.source
  obtain ⟨p, d', hseek, hoffsets', ⟨first', past, f, rest, hfs, hindex, -, rfl, hpos, -, hplaying⟩ | ⟨hle, rfl, hended⟩⟩ :=
    (h.seekable.seekTo hsource hframes hoffsets pos).exists
  · have hlt : p < bytesPerFrame * fs.length := by
      rw [Nat.mul_comm, ← Nat.div_lt_iff_lt_mul (by decide), hindex, hfs]
      simp
    rw [Nat.min_eq_left hlt.le]
    exact ⟨first', d', _, hseek, .playing hfs hplaying, hpos, hoffsets'⟩
  · have hle : bytesPerFrame * fs.length ≤ pos := by
      rwa [Nat.mul_comm, ← Nat.le_div_iff_mul_le (by decide)]
    rw [Nat.min_eq_right hle]
    exact ⟨first, d', [], hseek, .ended hended, hended.pos, hoffsets'⟩

end

/-! ## Places in the sound -/

def SeekFrom.position (pos length : Nat) : SeekFrom → Int
  | .start p => p
  | .current delta => pos + delta
  | .fromEnd delta => length + delta

/-- The number of a place has 64 bits, with a sign where there can be one. -/
def SeekFrom.Fits : SeekFrom → Prop
  | .start p => p < 2 ^ 64
  | .current delta | .fromEnd delta => -2 ^ 63 ≤ delta ∧ delta < 2 ^ 63

/-- What is asked of a decoder. -/
inductive Call where
  | read (n : Nat)
  | seek (place : SeekFrom)
  deriving DecidableEq, Repr

section

variable [ByteSource σ] {data : List UInt8} {At : σ → Nat → Prop} {fs first : List Frame} {d d' : Decoder σ}
  {bytes : List UInt8}

def Decoder.call (d : Decoder σ) : Call → Decoder σ
  | .read n => (d.read n).2
  | .seek place => (d.seek place).2

def Decoder.calls (d : Decoder σ) (cs : List Call) : Decoder σ := cs.foldl Decoder.call d

omit [ByteSource σ] in
/-- A place is rejected if its position is negative or has more than 64 bits. -/
theorem target_eq {length : Nat} (hlength : d.length? = some length) (hfits : place.Fits) :
    d.target place = if 0 ≤ place.position d.pos length ∧ place.position d.pos length < 2 ^ 64
      then .ok (place.position d.pos length).toNat else .error .negative := by
  cases place with
  | start p =>
    have hp : (p : Int) < 2 ^ 64 := by exact_mod_cast hfits
    rw [Decoder.target, SeekFrom.position, if_pos ⟨Int.natCast_nonneg p, hp⟩, Int.toNat_natCast]
  | current delta => rfl
  | fromEnd delta =>
    rw [Decoder.target, hlength]
    rfl

/-- A seek changes nothing, or goes to a position. -/
theorem OnTrack.seek (h : Serves data At) (hframes : Frames data 0 fs)
    (hoffsets : d.offsets = some (fs.map Frame.offset).toArray) (hd : OnTrack data At fs first d bytes)
    (place : SeekFrom) : (∃ e, d.target place = .error e ∧ d.seek place = (.error e, d)) ∨
    ∃ pos first' d' bytes', d.target place = .ok pos ∧ d.seek place = (.ok (min pos (bytesPerFrame * fs.length)), d') ∧
      OnTrack data At fs first' d' bytes' ∧ d'.pos = min pos (bytesPerFrame * fs.length) ∧ d'.offsets = d.offsets := by
  unfold Decoder.seek
  cases d.target place with
  | error e => exact .inl ⟨e, rfl, rfl⟩
  | ok pos =>
    refine .inr ?_
    by_cases hpos : pos = d.pos
    · have hle : pos ≤ bytesPerFrame * fs.length := by
        have := hd.length
        omega
      refine ⟨pos, first, d, bytes, rfl, ?_, hd, ?_, rfl⟩
      · dsimp only
        rw [if_pos hpos, Nat.min_eq_left hle]
      · rw [Nat.min_eq_left hle, hpos]
    · obtain ⟨first', d', bytes', hseek, htrack⟩ := hd.seekTo h hframes hoffsets pos
      refine ⟨pos, first', d', bytes', rfl, ?_, htrack⟩
      dsimp only
      rw [if_neg hpos, hseek]

/-- The decoder is somewhere on a stream with these frames. -/
structure Underway (data : List UInt8) (At : σ → Nat → Prop) (fs : List Frame) (d : Decoder σ) : Prop where
  offsets : d.offsets = some (fs.map Frame.offset).toArray
  track : ∃ first bytes, OnTrack data At fs first d bytes

theorem Underway.call (h : Serves data At) (hframes : Frames data 0 fs) (hd : Underway data At fs d) (c : Call) : Underway data At fs (d.call c) := by
  obtain ⟨hoffsets, first, bytes, htrack⟩ := hd
  cases c with
  | read n =>
    obtain ⟨out, d', hread, bytes', htrack', hoffsets', -⟩ := (htrack.read h n).exists
    rw [Decoder.call, hread]
    exact ⟨hoffsets'.trans hoffsets, first, bytes', htrack'⟩
  | seek place =>
    rw [Decoder.call]
    rcases htrack.seek h hframes hoffsets place with
      ⟨e, -, hseek⟩ | ⟨pos, first', d', bytes', -, hseek, htrack', -, hoffsets'⟩
    · rw [hseek]
      exact ⟨hoffsets, first, bytes, htrack⟩
    · rw [hseek]
      exact ⟨hoffsets'.trans hoffsets, first', bytes', htrack'⟩

/-- Calls do not get a decoder off its track. -/
theorem Underway.calls (h : Serves data At) (hframes : Frames data 0 fs) (hd : Underway data At fs d) (cs : List Call) : Underway data At fs (d.calls cs) := by
  induction cs generalizing d with
  | nil => exact hd
  | cons c cs ih => exact ih (hd.call h hframes c)

/-- The counters of a decoder over a stream with these frames, and what its calls make of them. -/
structure Accounted (fs : List Frame) (d : Decoder σ) : Prop where
  length : d.length? = some (bytesPerFrame * fs.length)
  cursor_le : d.cursor ≤ d.pcm.size
  size_pcm : d.pcm.size = 0 ∨ d.pcm.size = bytesPerFrame
  pos_le : d.pos ≤ bytesPerFrame * fs.length
  /-- With bytes left, the latest frame is the one of the position, decoded behind some of the frames before it. -/
  latest : d.cursor < d.pcm.size → d.cursor = d.pos % bytesPerFrame ∧ ∃ first past f rest,
    fs = first ++ past ++ f :: rest ∧ (first ++ past).length = d.pos / bytesPerFrame ∧
      ((({} : FrameDecoder).after past).decode f).1 = .ok d.pcm
  seek : ∀ place : SeekFrom, place.Fits → ∀ pos, pos = place.position d.pos (bytesPerFrame * fs.length) →
    0 ≤ pos → pos < 2 ^ 64 → ∃ d', d.seek place = (.ok (min pos.toNat (bytesPerFrame * fs.length)), d') ∧
      d'.pos = min pos.toNat (bytesPerFrame * fs.length)
  rejected : ∀ place : SeekFrom, place.Fits → ∀ pos, pos = place.position d.pos (bytesPerFrame * fs.length) →
    ¬(0 ≤ pos ∧ pos < 2 ^ 64) → d.seek place = (.error .negative, d)
  readAll : ∃ bytes d', d.readAll = (bytes, none, d') ∧ bytes.size = bytesPerFrame * fs.length - d.pos

omit [ByteSource σ] in
theorem OnTrack.latest (hd : OnTrack data At fs first d bytes) (hlt : d.cursor < d.pcm.size) :
    d.cursor = d.pos % bytesPerFrame ∧ ∃ first past f rest, fs = first ++ past ++ f :: rest ∧
      (first ++ past).length = d.pos / bytesPerFrame ∧ ((({} : FrameDecoder).after past).decode f).1 = .ok d.pcm := by
  cases hd with
  | ended hd =>
    rw [hd.pcm] at hlt
    exact absurd hlt (Nat.not_lt_zero _)
  | playing hfs hd =>
    rw [hd.size] at hlt
    refine ⟨?_, _, _, _, _, hfs, ?_, hd.pcm⟩
    · rw [hd.pos, mul_add_mod, mod_eq_of_lt hlt]
    · rw [hd.pos, mul_add_div (by decide), div_eq_of_lt hlt, Nat.add_zero, length_append]

theorem Underway.accounted (h : Serves data At) (hframes : Frames data 0 fs) (hd : Underway data At fs d) : Accounted fs d := by
  obtain ⟨hoffsets, first, bytes, htrack⟩ := hd
  have hlength : d.length? = some (bytesPerFrame * fs.length) := by
    rw [Decoder.length?, hoffsets]
    simp
  have htotal := htrack.length
  refine ⟨hlength, htrack.cursor_le, htrack.size_pcm, by omega, htrack.latest, ?_, ?_, ?_⟩
  · rintro place hfits pos rfl hnonneg hlt
    have htarget := target_eq hlength hfits
    rw [if_pos ⟨hnonneg, hlt⟩] at htarget
    rcases htrack.seek h hframes hoffsets place with ⟨e, he, -⟩ | ⟨p, -, d', -, hp, hseek, -, hpos, -⟩
    · rw [htarget] at he
      cases he
    · rw [htarget] at hp
      cases hp
      exact ⟨d', hseek, hpos⟩
  · rintro place hfits pos rfl hout
    have htarget := target_eq hlength hfits
    rw [if_neg hout] at htarget
    rw [Decoder.seek, htarget]
  · obtain ⟨d', hall⟩ := htrack.readAllFrom h #[]
    exact ⟨_, d', hall, by simp; omega⟩

end

/-! ## A quiet stream -/

def quietBody (begin : UInt8) : List UInt8 := [begin, 0] ++ List.replicate 98 0

def quietFrame (offset : Nat) (begin : UInt8) : Frame :=
  ⟨offset, ⟨32000, .hz44100, false, false, .mono, 0⟩, (quietBody begin).toArray⟩

/-- Three frames of silence. The main data of the last begins 50 bytes before it. -/
def quietFrames : List Frame := [quietFrame 0 0, quietFrame 104 0, quietFrame 208 0x19]

def quietStream : List UInt8 :=
  [quietBody 0, quietBody 0, quietBody 0x19].flatMap ([0xff, 0xfb, 0x10, 0xc0] ++ ·)

theorem quietStream_frames : Frames quietStream 0 quietFrames := .next rfl (.next rfl (.next rfl (.done rfl)))

instance decidableExistsOkPair {ε α β : Type} (x : Except ε α × β) (P : α → Prop) [DecidablePred P] :
    Decidable (∃ a b, x = (.ok a, b) ∧ P a) :=
  match x with
  | (.error _, _) => isFalse (by simp)
  | (.ok a, _) => decidable_of_iff (P a) (by simp)

theorem quietStream_opens : ∃ d source', Decoder.ofScanned ({ data := quietStream.toArray } : MemorySource) =
    (.ok d, source') ∧ d.readAll.2.1 = none := by
  decide +kernel

/-! ## The counters -/

theorem MemorySource.opened (hfault : source.fault = none) (hchunk : source.chunk ≠ some 0)
    (hopen : Decoder.ofScanned source = (.ok d, source')) :
    ∃ f rest, Frames source.data.toList 0 (f :: rest) ∧
      Playing source.data.toList (MemorySource.Holds source.data.toList) [] [] f rest d ∧ d.cursor = 0 ∧
      d.offsets = some ((f :: rest).map Frame.offset).toArray := by
  have h := MemorySource.serves source.data.toList
  exact h.seekable.playing_of_ofScanned ⟨rfl, rfl, hfault, hchunk⟩ hopen

end GameMedia.Audio
