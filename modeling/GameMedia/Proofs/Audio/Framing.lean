import GameMedia.Proofs.Audio.Bounds
import GameMedia.Proofs.Audio.Streams

/-!
# Where frames begin

A reader skips words until one is a header, or belongs to a stream of another kind. What it gives is said here by a
search in the bytes, for every position that it starts from, and so whole streams are known too: their frames lie one
behind the other, and from the offset of any of them the rest is found again.
-/

namespace GameMedia.Audio

open List Except Prod ByteSource

/-! ## Words that are not skipped -/

/-- There is a word at the offset, and it is a header or one of another version or layer. -/
def Begins (data : List UInt8) (o : Nat) (v : Except AudioError Header) : Prop :=
  o + 4 ≤ data.length ∧ Header.ofWord (FrameReader.wordOf ((data.drop o).take 4)) = v ∧
    ∀ w, v ≠ .error (.invalidHeader w)

/-- The first such word from a position on. -/
def BeginsFirst (data : List UInt8) (p o : Nat) (v : Except AudioError Header) : Prop :=
  p ≤ o ∧ Begins data o v ∧ ∀ q, p ≤ q → q < o → ∀ v, ¬Begins data q v

section

variable {data : List UInt8} {p o : Nat} {v : Except AudioError Header} {f : Frame}

theorem headerFrom_first (data : List UInt8) (p : Nat) :
    (∀ o, p ≤ o → ∀ v, ¬Begins data o v) ∧ headerFrom p (data.drop p) = .ok none ∨
    ∃ o v, BeginsFirst data p o v ∧ headerFrom p (data.drop p) = v.map fun h => some (o, h) := by
  generalize hbs : data.drop p = bs
  fun_induction headerFrom p bs with
  | case1 p a b c d rest h hword =>
    have hlen := congrArg length hbs
    simp only [length_drop, length_cons] at hlen
    refine .inr ⟨p, .ok h, ⟨le_rfl, ⟨by omega, ?_, fun w hw => by cases hw⟩, fun q _ _ => by omega⟩, rfl⟩
    rw [hbs]
    exact hword
  | case2 p a b c d rest w hword ih =>
    have hnext : data.drop (p + 1) = b :: c :: d :: rest := by rw [← drop_drop, hbs]; rfl
    have hskip : ∀ v, ¬Begins data p v := by
      rintro v ⟨-, hv, hne⟩
      rw [hbs] at hv
      exact hne w (hv.symm.trans hword)
    rcases ih hnext with ⟨hnone, hfrom⟩ | ⟨o, v, ⟨hle, hbegins, hfirst⟩, hfrom⟩
    · refine .inl ⟨fun o ho => ?_, hfrom⟩
      rcases ho.eq_or_lt with rfl | hlt
      · exact hskip
      · exact hnone o hlt
    · refine .inr ⟨o, v, ⟨by omega, hbegins, fun q hq hlt => ?_⟩, hfrom⟩
      rcases hq.eq_or_lt with rfl | hq
      · exact hskip
      · exact hfirst q hq hlt
  | case3 p a b c d rest e hother hword =>
    have hlen := congrArg length hbs
    simp only [length_drop, length_cons] at hlen
    refine .inr ⟨p, .error e, ⟨le_rfl, ⟨by omega, ?_, fun w hw => hother w (error.inj hw)⟩, fun q _ _ => by omega⟩, rfl⟩
    rw [hbs]
    exact hword
  | case4 bs p hshort =>
    refine .inl ⟨fun o ho v hbegins => ?_, rfl⟩
    have hlen := congrArg length hbs
    rw [length_drop] at hlen
    have hfour := hbegins.1
    rcases bs with _ | ⟨a, _ | ⟨b, _ | ⟨c, _ | ⟨d, rest⟩⟩⟩⟩
    case cons.cons.cons.cons => exact hshort a b c d rest rfl
    all_goals simp only [length_cons, length_nil] at hlen; omega

/-- What a reader gives where a word begins that is not skipped, by the length of the stream. -/
def verdict (data : List UInt8) (o : Nat) : Except AudioError Header → Except AudioError (Option Frame)
  | .error e => .error e
  | .ok h =>
    if data.length < o + h.frameSize then .error .truncated
    else .ok (some ⟨o, h, ((data.drop (o + 4)).take (h.frameSize - 4)).toArray⟩)

theorem nextFrame_first (h : BeginsFirst data p o v) : nextFrame data p = verdict data o v := by
  obtain ⟨hle, hbegins, hfirst⟩ := h
  rcases headerFrom_first data p with ⟨hnone, -⟩ | ⟨o', v', ⟨hle', hbegins', hfirst'⟩, hfrom⟩
  · exact absurd hbegins (hnone o hle v)
  obtain rfl : o' = o := by
    by_contra hne
    rcases Nat.lt_or_gt_of_ne hne with hlt | hlt
    · exact hfirst o' hle' hlt v' hbegins'
    · exact hfirst' o hle hlt v hbegins
  obtain rfl : v' = v := hbegins'.2.1.symm.trans hbegins.2.1
  unfold nextFrame
  rw [hfrom]
  cases v' with
  | error e => rfl
  | ok h =>
    have hsize := Header.frameSize_bounds hbegins.2.1
    have hfits := hbegins.1
    have hlen : ((data.drop (o' + 4)).take (h.frameSize - 4)).length < h.frameSize - 4 ↔
        data.length < o' + h.frameSize := by
      rw [length_take, length_drop]
      omega
    change (frameAt data o' h).map some = _
    rw [frameAt, if_neg (by unfold Header.maxFrameSize; omega), verdict]
    simp only [hlen]
    split <;> rfl

/-- Where a frame is that was found, and how long it is. -/
theorem nextFrame_some (h : nextFrame data p = .ok (some f)) :
    p ≤ f.offset ∧ f.stop = f.offset + f.header.frameSize ∧ 96 ≤ f.header.frameSize ∧ f.stop ≤ data.length := by
  rcases headerFrom_first data p with ⟨-, hnone⟩ | ⟨o, v, hfirst, -⟩
  · rw [nextFrame, hnone] at h
    cases h
  rw [nextFrame_first hfirst] at h
  obtain ⟨hle, hbegins, -⟩ := hfirst
  cases v with
  | error e => cases h
  | ok hd =>
    have hsize := Header.frameSize_bounds hbegins.2.1
    rw [verdict] at h
    split at h
    · cases h
    · next hlong =>
      cases h
      unfold Frame.stop
      simp only [List.size_toArray, length_take, length_drop]
      omega

end

/-! ## Whole streams -/

/-- The frames that a reader gives one after another, and the error that it ends with, if not at the end of the
stream. -/
inductive Yields {σ : Type} [ByteSource σ] : FrameReader σ → List Frame → Option AudioError → Prop
  | done {r : FrameReader σ} : r.next?.1 = .ok none → Yields r [] none
  | failed {r : FrameReader σ} {e : AudioError} : r.next?.1 = .error e → Yields r [] (some e)
  | next {r : FrameReader σ} {f : Frame} {fs : List Frame} {x : Option AudioError} :
    r.next?.1 = .ok (some f) → Yields r.next?.2 fs x → Yields r (f :: fs) x

section

variable {σ : Type} [ByteSource σ] {data : List UInt8} {At : σ → Nat → Prop} {r : FrameReader σ} {p : Nat}

theorem Steady.next?_placed (h : Steady data At) (hr : Placed At r p) :
    r.next?.1 = nextFrame data p ∧ Placed At r.next?.2 (nextStop data p) := by
  rcases h.next? hr with ⟨e, q, -, hfalse, -⟩ | htold
  · exact hfalse.elim
  · exact htold

/-- The frames of a stream from a position on. Every reader that is there gives them, and one that is at the offset of a
frame gives this one and the rest. -/
theorem Steady.yields (h : Steady data At) (p : Nat) : ∃ fs x, (∀ r, Placed At r p → Yields r fs x) ∧
    fs.Pairwise (fun f g => f.stop ≤ g.offset) ∧
    (∀ f ∈ fs, p ≤ f.offset ∧ f.stop = f.offset + f.header.frameSize ∧ 96 ≤ f.header.frameSize ∧
      f.stop ≤ data.length) ∧
    ∀ gs f rest, fs = gs ++ f :: rest → ∀ r, Placed At r f.offset → Yields r (f :: rest) x := by
  -- every frame brings the end of the stream nearer
  induction hleft : data.length - p using Nat.strong_induction_on generalizing p with
  | _ left ih =>
    cases hnext : nextFrame data p with
    | error e =>
      refine ⟨[], some e, fun r hr => .failed ?_, .nil, forall_mem_nil _, fun gs f rest heq => by simp at heq⟩
      rw [(h.next?_placed hr).1, hnext]
    | ok found =>
      cases found with
      | none =>
        refine ⟨[], none, fun r hr => .done ?_, .nil, forall_mem_nil _, fun gs f rest heq => by simp at heq⟩
        rw [(h.next?_placed hr).1, hnext]
      | some f =>
        have hf := nextFrame_some hnext
        obtain ⟨fs, x, hyields, hpairs, hbounds, hagain⟩ := ih (data.length - f.stop) (by omega) f.stop rfl
        have hstep : ∀ q, nextFrame data q = .ok (some f) → ∀ r, Placed At r q → Yields r (f :: fs) x := by
          intro q hq r hr
          obtain ⟨hgives, hr'⟩ := h.next?_placed hr
          rw [nextStop_of_some hq] at hr'
          exact .next (hgives.trans hq) (hyields _ hr')
        refine ⟨f :: fs, x, hstep p hnext, pairwise_cons.mpr ⟨fun g hg => (hbounds g hg).1, hpairs⟩,
          forall_mem_cons.mpr ⟨hf, fun g hg => ?_⟩, fun gs g rest heq r hr => ?_⟩
        · have hg := hbounds g hg
          exact ⟨by omega, hg.2⟩
        · cases gs with
          | nil =>
            obtain ⟨rfl, rfl⟩ := cons.inj heq
            exact hstep f.offset (nextFrame_again hnext) r hr
          | cons _ gs => exact hagain gs g rest (cons.inj heq).2 r hr

/-- **A reader finds the first frame.** Over a source that does not fail, it gives none if no word from its position on
is other than skipped. Else the first such word decides: an error if it is of another version or layer, an error if the
stream ends before the frame does, and the frame otherwise, with the reader right behind it. So the frames of a stream
lie one behind the other, and whoever starts at the offset of one of them gets that one and the rest. -/
theorem frames_synchronized (h : Steady data At) (hr : Placed At r p) :
    ((∀ o, p ≤ o → ∀ v, ¬Begins data o v) ∧ r.next?.1 = .ok none ∨
      ∃ o v, BeginsFirst data p o v ∧ r.next?.1 = verdict data o v ∧
        (∀ e, v = .error e → (∃ u, e = .unsupportedVersion u) ∨ ∃ l, e = .unsupportedLayer l) ∧
        ∀ hd, v = .ok hd → o + hd.frameSize ≤ data.length → Placed At r.next?.2 (o + hd.frameSize)) ∧
    ∃ fs x, Yields r fs x ∧ fs.Pairwise (fun f g => f.stop ≤ g.offset) ∧
      (∀ f ∈ fs, p ≤ f.offset ∧ f.stop = f.offset + f.header.frameSize ∧ 96 ≤ f.header.frameSize ∧
        f.stop ≤ data.length) ∧
      ∀ gs f rest, fs = gs ++ f :: rest → ∀ r', Placed At r' f.offset → Yields r' (f :: rest) x := by
  obtain ⟨hgives, hr'⟩ := h.next?_placed hr
  refine ⟨?_, ?_⟩
  · rcases headerFrom_first data p with ⟨hnone, hfrom⟩ | ⟨o, v, hfirst, -⟩
    · exact .inl ⟨hnone, by rw [hgives, nextFrame, hfrom]⟩
    · have hnext := nextFrame_first hfirst
      refine .inr ⟨o, v, hfirst, hgives.trans hnext, ?_, ?_⟩
      · rintro e rfl
        obtain ⟨hd, hok, -⟩ | ⟨e', herror, hcases⟩ := Header.ofWord_cases (FrameReader.wordOf ((data.drop o).take 4))
        · cases hok.symm.trans hfirst.2.1.2.1
        · obtain rfl := error.inj (herror.symm.trans hfirst.2.1.2.1)
          exact hcases.resolve_left fun hw => hfirst.2.1.2.2 _ (congrArg error hw)
      · rintro hd rfl hfits
        rw [verdict, if_neg (by omega)] at hnext
        rwa [nextStop_of_some hnext, (nextFrame_some hnext).2.1] at hr'
  · obtain ⟨fs, x, hyields, hrest⟩ := h.yields p
    exact ⟨fs, x, hyields r hr, hrest⟩

end

/-- A byte to skip, a frame of silence and the beginning of another one. -/
def cutStream : List UInt8 := 0xff :: [0xff, 0xfb, 0x10, 0xc0] ++ replicate 100 0 ++ [0xff, 0xfb, 0x10, 0xc0, 0]

/-- A reader of it, at its start, that gets three bytes at a time. -/
def cutReader : FrameReader MemorySource := ⟨⟨cutStream.toArray, 0, some 3, none⟩, 0⟩

theorem cutReader_synchronized : Placed (MemorySource.Holds cutStream) cutReader 0 ∧
    ∃ fs x, Yields cutReader fs x ∧ fs.Pairwise fun f g => f.stop ≤ g.offset := by
  have hr : Placed (MemorySource.Holds cutStream) cutReader 0 := ⟨⟨rfl, rfl, rfl, by decide⟩, rfl⟩
  obtain ⟨-, fs, x, hyields, hpairs, -⟩ := frames_synchronized (MemorySource.serves cutStream).steady hr
  exact ⟨hr, fs, x, hyields, hpairs⟩

end GameMedia.Audio
