import SynapseMem.Proofs.Spikes.Dump

/-!
# Tensors that are spike dumps

A tensor is a spike dump when it has five dimensions and all its elements round to 0 or 1; else the
first element that does not is reported (`SpikeDump.ofTensor_of_not_isBit`).

However a tensor was built, it has as many elements as its dimensions say, and these fit
(`Tensor.Built.length_eq`, `Tensor.Built.fits`). So the dump of a tensor is sound
(`SpikeDump.sound_of_ofTensor`), and the slices of indices in range lie within its spikes.
-/

namespace SynapseMem

/-- A number that rounds to 0 or 1. -/
def IsBit (x : Binary64) : Prop := x.isFinite = true ∧ -1 / 2 < x.toRat ∧ x.toRat < 3 / 2

theorem exists_spike?_iff {x : Binary64} : (∃ bit, spike? x = some bit) ↔ IsBit x := by
  simp only [spike?_eq_some_iff, IsBit]
  constructor
  · rintro ⟨bit, hfinite, hlow, hhigh, -⟩
    exact ⟨hfinite, hlow, hhigh⟩
  · rintro ⟨hfinite, hlow, hhigh⟩
    exact ⟨_, hfinite, hlow, hhigh, rfl⟩

/-! ### Tensors and their number of elements -/

namespace Tensor

/-- A tensor made of dimensions and data, or read from nested arrays. -/
inductive Built : Tensor → Prop
  | ofData {shape : List ℕ} {data : List Binary64} {t : Tensor} (h : ofData shape data = .ok t) :
      Built t
  | ofJson {name : String} {v : Json.Value} {t : Tensor} (h : ofJson name v = .ok t) : Built t

/-- A tensor is made of dimensions that fit, and of as many elements as they say. -/
theorem ofData_eq_ok_iff {shape : List ℕ} {data : List Binary64} {t : Tensor} :
    ofData shape data = .ok t ↔ Fits shape ∧ shape.prod = data.length ∧ t = ⟨shape, data⟩ := by
  constructor
  · intro h
    obtain ⟨_, hreserve, h⟩ := bind_eq_ok_iff.1 h
    obtain ⟨needed, hneeded, h⟩ := bind_eq_ok_iff.1 h
    have hsize : data.length < 2 ^ 60 := by
      by_contra hle
      rw [reserve_of_le (by omega)] at hreserve
      cases hreserve
    have hcounted : ∀ front, front <+: shape → front.prod < 2 ^ 64 := by
      by_contra hnot
      rw [product_of_not_counted hnot] at hneeded
      cases hneeded
    rw [product_of_counted hcounted] at hneeded
    cases hneeded
    split_ifs at h with hcount
    · cases h
      exact ⟨⟨hcounted, hcount ▸ hsize⟩, hcount, rfl⟩
    · cases h
  · rintro ⟨hfits, hcount, rfl⟩
    have hsize := hfits.addressable
    rw [ofData, reserve_of_lt (by omega), ok_bind, product_of_counted hfits.counted, ok_bind,
      if_pos hcount]
    rfl

theorem Built.fits {t : Tensor} (h : t.Built) : Fits t.shape := by
  cases h with
  | ofData h =>
    obtain ⟨hfits, -, rfl⟩ := ofData_eq_ok_iff.1 h
    exact hfits
  | ofJson h => exact (ofJson_eq_ok_iff.1 h).1

theorem Built.length_eq {t : Tensor} (h : t.Built) : t.data.length = t.shape.prod := by
  cases h with
  | ofData h =>
    obtain ⟨-, hcount, rfl⟩ := ofData_eq_ok_iff.1 h
    exact hcount.symm
  | ofJson h => exact (nested_of_ofJson h).length

end Tensor

namespace SpikeDump

/-! ### Validation -/

section Validation

variable {tensor : Tensor} {dump : SpikeDump} (labels : List ℤ)

theorem spikesFrom_eq_error {index : ℕ} {xs : List Binary64} {e : Error}
    (h : spikesFrom index xs = .error e) :
    ∃ k x, xs[k]? = some x ∧ ¬ IsBit x ∧ (∀ y ∈ xs.take k, IsBit y) ∧
      e = .invalidSpike (index + k) x := by
  refine exists_first_of_reader IsBit Error.invalidSpike spikesFrom (fun _ => rfl)
    (fun i x xs e h => ?_) h
  rw [spikesFrom] at h
  cases hx : spike? x with
  | none =>
    rw [hx] at h
    cases h
    exact .inl ⟨fun hbit => by simpa [hx] using exists_spike?_iff.2 hbit, rfl⟩
  | some bit =>
    cases hrest : spikesFrom (i + 1) xs with
    | ok bits =>
      simp only [hx, hrest] at h
      cases h
    | error e' =>
      simp only [hx, hrest] at h
      cases h
      exact .inr ⟨exists_spike?_iff.1 ⟨bit, hx⟩, rfl⟩

/-- Five dimensions are those of a dump. -/
theorem ofTensor_of_shape {steps samples channels height width : ℕ}
    (h : tensor.shape = [steps, samples, channels, height, width]) :
    ofTensor tensor labels =
      (spikesFrom 0 tensor.data).map fun spikes =>
        ⟨steps, samples, channels, height, width, spikes, labels⟩ := by
  rw [ofTensor, h]
  cases spikesFrom 0 tensor.data <;> rfl

theorem exists_dims {shape : List ℕ} (h : shape.length = 5) :
    ∃ steps samples channels height width, shape = [steps, samples, channels, height, width] := by
  match shape, h with
  | [steps, samples, channels, height, width], _ =>
    exact ⟨steps, samples, channels, height, width, rfl⟩

/-- A tensor is accepted when it has five dimensions and all its elements round to 0 or 1. -/
theorem exists_ofTensor_iff :
    (∃ dump, ofTensor tensor labels = .ok dump) ↔
      tensor.shape.length = 5 ∧ ∀ x ∈ tensor.data, IsBit x := by
  constructor
  · rintro ⟨dump, hdump⟩
    obtain ⟨hshape, hspikes⟩ := of_ofTensor hdump
    refine ⟨by rw [hshape]; rfl, ?_⟩
    simp only [← exists_spike?_iff]
    exact exists_forall₂_iff.1 ⟨_, hspikes⟩
  · rintro ⟨hlength, hbits⟩
    obtain ⟨steps, samples, channels, height, width, hshape⟩ := exists_dims hlength
    simp only [← exists_spike?_iff] at hbits
    obtain ⟨spikes, hspikes⟩ := exists_forall₂_iff.2 hbits
    rw [ofTensor_of_shape labels hshape, (spikesFrom_eq_ok_iff 0).2 hspikes]
    exact ⟨_, rfl⟩

/-- The first element that rounds to neither 0 nor 1 is reported. -/
theorem ofTensor_of_not_isBit (hlength : tensor.shape.length = 5)
    (hbits : ¬ ∀ x ∈ tensor.data, IsBit x) :
    ∃ index x, tensor.data[index]? = some x ∧ ¬ IsBit x ∧ (∀ y ∈ tensor.data.take index, IsBit y) ∧
      ofTensor tensor labels = .error (.invalidSpike index x) := by
  obtain ⟨steps, samples, channels, height, width, hshape⟩ := exists_dims hlength
  cases hspikes : spikesFrom 0 tensor.data with
  | ok spikes =>
    have hdump :=
      (exists_ofTensor_iff labels).1 ⟨_, by rw [ofTensor_of_shape labels hshape, hspikes]; rfl⟩
    exact absurd hdump.2 hbits
  | error e =>
    obtain ⟨index, x, hx, hbit, hbefore, rfl⟩ := spikesFrom_eq_error hspikes
    refine ⟨index, x, hx, hbit, hbefore, ?_⟩
    rw [ofTensor_of_shape labels hshape, hspikes, Nat.zero_add]
    rfl

end Validation

/-! ### Dumps of tensors -/

/-- The spikes of a dump are as many as its dimensions say, which fit. -/
theorem sound_of_ofTensor {tensor : Tensor} {dump : SpikeDump} {labels : List ℤ} (h : tensor.Built)
    (hdump : ofTensor tensor labels = .ok dump) : dump.Sound := by
  obtain ⟨hshape, hspikes⟩ := of_ofTensor hdump
  refine ⟨?_, hshape ▸ h.fits⟩
  rw [← hspikes.length_eq, h.length_eq, hshape]

/-- The spikes of an accepted tensor are its elements from a half on. -/
theorem spikes_of_ofTensor {tensor : Tensor} {dump : SpikeDump} {labels : List ℤ}
    (h : ofTensor tensor labels = .ok dump) :
    dump.spikes = tensor.data.map fun x => decide (1 / 2 ≤ x.toRat) := by
  have hspikes := (of_ofTensor h).2.imp fun x bit hbit => (spike?_eq_some_iff.1 hbit).2.2.2.symm
  rw [← List.map_id dump.spikes]
  exact (map_eq_map_iff_forall₂.2 hspikes).symm

/-- A tensor is a spike dump when it has five dimensions and its elements round to 0 or 1, and the
first element that does not is reported. There is a spike where the element is a half or more, and
there are as many spikes as the product of the dimensions. The blocks and frames of indices in range
lie within them: nothing but the count of the cells of a frame can keep a sample from being its
block, and nothing at all can keep a frame from being its part of the block. -/
theorem ofTensor_validates {tensor : Tensor} (h : tensor.Built) (labels : List ℤ) :
    ((∃ dump, ofTensor tensor labels = .ok dump) ↔
      tensor.shape.length = 5 ∧ ∀ x ∈ tensor.data, IsBit x) ∧
    (tensor.shape.length = 5 → (¬ ∀ x ∈ tensor.data, IsBit x) →
      ∃ index x, tensor.data[index]? = some x ∧ ¬ IsBit x ∧
        (∀ y ∈ tensor.data.take index, IsBit y) ∧
        ofTensor tensor labels = .error (.invalidSpike index x)) ∧
    ∀ dump, ofTensor tensor labels = .ok dump →
      dump.shape = tensor.shape ∧
      dump.spikes = (tensor.data.map fun x => decide (1 / 2 ≤ x.toRat)) ∧
      dump.spikes.length = dump.shape.prod ∧
      ∀ step < dump.steps, ∀ sample < dump.samples,
        (step * dump.samples + sample) * dump.blockLength + dump.blockLength ≤
          dump.spikes.length ∧
        dump.sampleAt step sample = (dump.frameLength.map fun _ => dump.block step sample) ∧
        ∀ channel < dump.channels,
          channel * (dump.height * dump.width) + dump.height * dump.width ≤ dump.blockLength ∧
          dump.frame step sample channel = .ok (dump.plane step sample channel) := by
  refine ⟨exists_ofTensor_iff labels, ofTensor_of_not_isBit labels, fun dump hdump => ?_⟩
  have hsound := sound_of_ofTensor h hdump
  refine ⟨(of_ofTensor hdump).1.symm, spikes_of_ofTensor hdump, hsound.length_spikes,
    fun step hstep sample hsample => ?_⟩
  refine ⟨hsound.block_le hstep hsample, sampleAt_eq_map hsound hstep hsample,
    fun channel hchannel => ?_⟩
  exact ⟨plane_le hchannel, frame_eq hsound hstep hsample hchannel⟩

/-- A frame of two cells with one spike. -/
def oneSpike : Tensor := ⟨[1, 1, 1, 1, 2], [Binary64.one, Binary64.zero]⟩

/-- A frame of two cells has its two spikes within reach. -/
theorem ofTensor_validates_oneSpike :
    oneSpike.Built ∧ (∀ x ∈ oneSpike.data, IsBit x) ∧
      ∃ dump, ofTensor oneSpike [7] = .ok dump ∧ dump.spikes.length = 2 ∧
        dump.frame 0 0 0 = .ok (dump.plane 0 0 0) := by
  have hbuilt : oneSpike.Built := .ofData (Tensor.ofData_eq_ok_iff.2 ⟨by decide, by decide, rfl⟩)
  have hdump : ofTensor oneSpike [7] = .ok ⟨1, 1, 1, 1, 2, [true, false], [7]⟩ := by decide +kernel
  obtain ⟨hiff, -, hall⟩ := ofTensor_validates hbuilt [7]
  obtain ⟨-, -, hcount, hslices⟩ := hall _ hdump
  have hbits := (hiff.1 ⟨_, hdump⟩).2
  refine ⟨hbuilt, hbits, _, hdump, hcount, ?_⟩
  exact ((hslices 0 (by decide) 0 (by decide)).2.2 0 (by decide)).2

end SpikeDump

end SynapseMem
