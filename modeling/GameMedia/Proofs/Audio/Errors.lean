import GameMedia.Proofs.Audio.Bounds
import GameMedia.Proofs.Audio.Positions

/-!
# What can go wrong

A decoder fails where its source does, where a frame is of another version or layer or is cut off, and where there is no
frame. It never fails over the bits of a frame.
-/

namespace GameMedia.Audio

open Huffman

namespace Decoder

variable {σ : Type} [ByteSource σ] {d : Decoder σ}

theorem ofStream_advance (h : d.advance.1 = .error e) : e.ofStream := by
  unfold advance at h
  split at h
  · next hnext => exact FrameReader.next?_error (Except.error.inj h ▸ congrArg Prod.fst hnext)
  · cases h
  · next f frames _ =>
    obtain ⟨pcm, -, hdecode⟩ := exists_decode { d with frames } f
    rw [hdecode] at h
    cases h

theorem ofStream_ofSource {source : σ} (h : (ofSource source).1 = .error e) : e.ofStream := by
  unfold ofSource at h
  split at h
  · next hnext => exact FrameReader.next?_error (Except.error.inj h ▸ congrArg Prod.fst hnext)
  · cases h
    rfl
  · next f frames _ =>
    obtain ⟨pcm, -, hdecode⟩ := exists_decode { frames, sampleRate := f.header.rate.hertz } f
    rw [hdecode] at h
    cases h

theorem ofStream_scan {r : FrameReader σ} (h : (scan r found).1 = .error e) : e.ofStream := by
  fun_induction scan r found with
  | case1 r found e' r' hnext => exact FrameReader.next?_error (Except.error.inj h ▸ congrArg Prod.fst hnext)
  | case2 => cases h
  | case3 r found f r' hnext _ ih => exact ih h

theorem ofStream_ofScanned {source : σ} (h : (ofScanned source).1 = .error e) : e.ofStream := by
  unfold ofScanned at h
  split at h
  · cases h
    rfl
  · split at h
    · next hscan => exact ofStream_scan (Except.error.inj h ▸ congrArg Prod.fst hscan)
    · split at h
      · cases h
        rfl
      · split at h
        · next hsource => exact ofStream_ofSource (Except.error.inj h ▸ congrArg Prod.fst hsource)
        · cases h

theorem ofStream_read (h : (d.read n).1 = .error e) : e.ofStream := by
  unfold read at h
  split at h
  · cases h
  · split at h
    · split at h
      · next hadvance => exact ofStream_advance (Except.error.inj h ▸ congrArg Prod.fst hadvance)
      · cases h
      · cases h
    · cases h

theorem ofStream_readAllFrom (h : (d.readAllFrom gathered).2.1 = some e) : e.ofStream := by
  fun_induction readAllFrom d gathered with
  | case1 d gathered _ e' d' hadvance => exact ofStream_advance (Option.some.inj h ▸ congrArg Prod.fst hadvance)
  | case2 => cases h
  | case3 d gathered _ d' hadvance _ _ ih => exact ih h

theorem ofStream_advanceBy (h : (d.advanceBy n).1 = .error e) : e.ofStream := by
  fun_induction advanceBy d n with
  | case1 => cases h
  | case2 d n e' d' hadvance => exact ofStream_advance (Except.error.inj h ▸ congrArg Prod.fst hadvance)
  | case3 d n _ d' hadvance ih => exact ih h

theorem ofStream_seek (h : (d.seek place).1 = .error (.decoding e)) : e.ofStream := by
  unfold seek at h
  split at h
  · next htarget =>
    obtain rfl := Except.error.inj h
    unfold target at htarget
    dsimp only at htarget
    split at htarget
    · cases htarget
    · split at htarget <;> cases htarget
    · split at htarget
      · split at htarget <;> cases htarget
      · cases htarget
  · split at h
    · cases h
    · unfold seekTo at h
      split at h
      · cases h
      · dsimp only at h
        split at h
        · unfold seekInto at h
          split at h
          · cases h
            rfl
          · split at h
            · next hadvance =>
              exact ofStream_advanceBy (SeekError.decoding.inj (Except.error.inj h) ▸ congrArg Prod.fst hadvance)
            · cases h
        · unfold seekPastEnd at h
          split at h
          · cases h
            rfl
          · cases h

end Decoder

/-- **Whatever the bits are, they begin with a code**, of at most 19 bits. So main data can always be decoded, and no
decoder says of any source that its bits are no code. -/
theorem bits_begin_with_code :
    (∀ table b extra (r : BitReader), pairBook? table = some (b, extra) →
      ∃ v n, n ≤ 19 ∧ b.tree.read r = (some v, ⟨r.data, r.pos + n⟩)) ∧
    (∀ (tableB : Bool) (r : BitReader), ∃ v n, n ≤ 19 ∧
      (if tableB then quadTreeB else quadTreeA).read r = (some v, ⟨r.data, r.pos + n⟩)) ∧
    (∀ table r, ∃ pair, (readPair table r).1 = .ok pair) ∧ (∀ tableB r, ∃ quad, (readQuad tableB r).1 = .ok quad) ∧
    (∀ h side data, ∃ coded, mainData h side data = .ok coded) ∧
    ∀ {σ : Type} [ByteSource σ] (source : σ) (d : Decoder σ) n place table,
      (Decoder.ofSource source).1 ≠ .error (.badCode table) ∧ (Decoder.ofScanned source).1 ≠ .error (.badCode table) ∧
      (d.read n).1 ≠ .error (.badCode table) ∧ d.readAll.2.1 ≠ some (.badCode table) ∧
      (d.seek place).1 ≠ .error (.decoding (.badCode table)) := by
  refine ⟨fun table b extra r h => ?_, fun tableB r => ?_, succeeds_readPair, succeeds_readQuad, exists_mainData,
    fun source d n place table => ⟨fun h => ?_, fun h => ?_, fun h => ?_, fun h => ?_, fun h => ?_⟩⟩
  · obtain ⟨v, n, hn, hread⟩ := Tree.read_full (full_pairTree h).1 r
    exact ⟨v, n, hn.trans (full_pairTree h).2, hread⟩
  · obtain ⟨v, n, hn, hread⟩ := Tree.read_full (full_quadTree tableB).1 r
    exact ⟨v, n, hn.trans (full_quadTree tableB).2, hread⟩
  · exact Bool.noConfusion (Decoder.ofStream_ofSource h)
  · exact Bool.noConfusion (Decoder.ofStream_ofScanned h)
  · exact Bool.noConfusion (Decoder.ofStream_read h)
  · exact Bool.noConfusion (Decoder.ofStream_readAllFrom h)
  · exact Bool.noConfusion (Decoder.ofStream_seek h)

theorem bits_begin_with_code_ones :
    pairBook? 13 = some (⟨pairs13, 16⟩, 0) ∧
    ∃ v n, n ≤ 19 ∧ (Book.tree ⟨pairs13, 16⟩).read ⟨#[255], 0⟩ = (some v, ⟨#[255], 0 + n⟩) :=
  ⟨rfl, bits_begin_with_code.1 13 _ 0 ⟨#[255], 0⟩ rfl⟩

end GameMedia.Audio
