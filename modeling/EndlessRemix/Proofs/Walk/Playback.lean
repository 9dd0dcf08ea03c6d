import EndlessRemix.Walk.Render
import Mathlib

/-!
# What a path plays

A path plays the frames of its slices one after the other. The output for a path of slices that lie
inside the channels is this sequence up to the target, so each of its frames comes from one visit,
the same one in every channel.
-/

namespace EndlessRemix

/-! ## Parts of a sequence -/

/-- How much comes before position `k` of a path whose entries count `c` each. -/
def amountBefore (c : ℕ → ℕ) (path : List ℕ) (k : ℕ) : ℕ := ((path.take k).map c).sum

section

variable {c : ℕ → ℕ} {path : List ℕ} {k l f here there : ℕ}

lemma amountBefore_cons_succ (c : ℕ → ℕ) (here : ℕ) (path : List ℕ) (k : ℕ) :
    amountBefore c (here :: path) (k + 1) = c here + amountBefore c path k := by
  rw [amountBefore, List.take_succ_cons, List.map_cons, List.sum_cons, amountBefore]

/-- A later position has all the entries in between before it. -/
lemma amountBefore_add_le (hk : path[k]? = some here) (h : k < l) :
    amountBefore c path k + c here ≤ amountBefore c path l := by
  obtain ⟨d, rfl⟩ : ∃ d, l = k + (1 + d) := ⟨l - k - 1, by omega⟩
  have hdrop : path.drop k = here :: path.drop (k + 1) := by
    obtain ⟨hlt, rfl⟩ := List.getElem?_eq_some_iff.mp hk
    exact List.drop_eq_getElem_cons hlt
  have hone : 1 + d = d + 1 := by omega
  rw [amountBefore, amountBefore, List.take_add, hdrop, hone, List.take_succ_cons, List.map_append,
    List.sum_append, List.map_cons, List.sum_cons]
  omega

/-- Every place is in one of the parts. -/
theorem exists_part (hf : f < (path.map c).sum) :
    ∃ k here, path[k]? = some here ∧ amountBefore c path k ≤ f
      ∧ f < amountBefore c path k + c here := by
  induction path generalizing f with
  | nil => simp at hf
  | cons first rest ih =>
    rw [List.map_cons, List.sum_cons] at hf
    rcases lt_or_ge f (c first) with h | h
    · exact ⟨0, first, rfl, Nat.zero_le f, by simpa [amountBefore] using h⟩
    · obtain ⟨k, here, hk, hle, hlt⟩ := ih (f := f - c first) (by omega)
      refine ⟨k + 1, here, hk, ?_, ?_⟩
      · rw [amountBefore_cons_succ]
        omega
      · rw [amountBefore_cons_succ]
        omega

/-- No place is in two of the parts. -/
theorem part_unique (hk : path[k]? = some here) (hl : path[l]? = some there)
    (hkf : amountBefore c path k ≤ f) (hfk : f < amountBefore c path k + c here)
    (hlf : amountBefore c path l ≤ f) (hfl : f < amountBefore c path l + c there) : k = l := by
  rcases lt_trichotomy k l with h | h | h
  · have := amountBefore_add_le (c := c) hk h
    omega
  · exact h
  · have := amountBefore_add_le (c := c) hl h
    omega

/-- What stands at a place of the sequence stands at this place of its part. -/
theorem getElem?_flatMap_part {α : Type} (g : ℕ → List α) (hk : path[k]? = some here)
    (hle : amountBefore (fun i => (g i).length) path k ≤ f)
    (hlt : f < amountBefore (fun i => (g i).length) path k + (g here).length) :
    (path.flatMap g)[f]? = (g here)[f - amountBefore (fun i => (g i).length) path k]? := by
  induction path generalizing k f with
  | nil => cases hk
  | cons first rest ih =>
    rw [List.flatMap_cons]
    cases k with
    | zero =>
      obtain rfl : first = here := Option.some.inj hk
      have hzero : amountBefore (fun i => (g i).length) (first :: rest) 0 = 0 := rfl
      rw [hzero] at hlt ⊢
      rw [List.getElem?_append_left (by omega), Nat.sub_zero]
    | succ k =>
      rw [amountBefore_cons_succ] at hle hlt ⊢
      rw [List.getElem?_append_right (by omega), ih hk (by omega) (by omega), Nat.sub_sub]

end

/-! ## Slices inside a channel -/

namespace Slice

/-- The first frame of a slice. -/
def first (s : Slice) : ℕ := s.start.toNat

/-- The number of frames of a slice. -/
def count (s : Slice) : ℕ := s.length.toNat

/-- The slice has at least one frame, and all of them are among the first `size` ones. -/
structure Within (s : Slice) (size : ℕ) : Prop where
  start_eq : s.start = .int s.first
  length_eq : s.length = .int s.count
  pos : 0 < s.count
  le : s.first + s.count ≤ size

/-- The frames of a slice. -/
def taken (s : Slice) (channel : Array Sample) : List Sample :=
  (channel.extract s.first (s.first + s.count)).toList

section

variable {s : Slice} {channel : Array Sample}

lemma length_taken (h : s.Within channel.size) : (s.taken channel).length = s.count := by
  rw [taken, Array.length_toList, Array.size_extract, min_eq_left h.le, Nat.add_sub_cancel_left]

lemma getElem?_taken {i : ℕ} (hi : i < s.count) :
    (s.taken channel)[i]? = channel[s.first + i]? := by
  rw [taken, Array.getElem?_toList, Array.getElem?_extract]
  split_ifs with h
  · rfl
  · rw [Array.getElem?_eq_none (by omega)]

lemma writable_eq (h : s.Within channel.size) (room : ℕ) : s.writable room = min s.count room := by
  unfold writable
  rw [h.length_eq]

/-- Copied frames are the first ones of the slice, and none is missing. -/
lemma frames_eq (h : s.Within channel.size) {n : ℕ} (hn : n ≤ s.count) :
    (s.frames channel n).toList = (s.taken channel).take n := by
  have hle := h.le
  have hstart : s.start.clampPosition channel.size = s.first := by
    rw [h.start_eq]
    exact min_eq_left (by omega)
  have hstop : (s.start.advance n).clampPosition channel.size = s.first + n := by
    rw [h.start_eq]
    exact min_eq_left (by omega)
  unfold frames
  simp only [hstart, hstop]
  have hsize : (channel.extract s.first (s.first + n)).size = n := by
    rw [Array.size_extract, min_eq_left (by omega), Nat.add_sub_cancel_left]
  rw [hsize, Nat.sub_self, Array.replicate_zero, Array.append_empty, taken, Array.toList_extract,
    Array.toList_extract, List.extract_eq_take_drop, List.extract_eq_take_drop, List.take_take,
    Nat.add_sub_cancel_left, Nat.add_sub_cancel_left, min_eq_left hn]

end

end Slice

/-! ## The output of a path -/

/-- The number of frames of the slice at a position. -/
def countAt (slices : Array Slice) (here : ℕ) : ℕ := ((slices[here]?).map Slice.count).getD 0

/-- The frames of the slice at a position. -/
def takenAt (slices : Array Slice) (channel : Array Sample) (here : ℕ) : List Sample :=
  ((slices[here]?).map (·.taken channel)).getD []

section

variable {slices : Array Slice} {channel : Array Sample} {path : Array ℕ} {target : ℕ}

lemma length_takenAt (hslices : ∀ s ∈ slices, s.Within channel.size) (here : ℕ) :
    (takenAt slices channel here).length = countAt slices here := by
  unfold takenAt countAt
  cases hs : slices[here]? with
  | none => rfl
  | some s => exact Slice.length_taken (hslices s (Array.mem_of_getElem? hs))

/-- Rendering appends what the path plays, as far as it fits. -/
lemma toList_foldl_render (hslices : ∀ s ∈ slices, s.Within channel.size) (path : List ℕ)
    (out : Array Sample) :
    (path.foldl (fun out beat =>
      match slices[beat]? with
      | some s => out ++ s.frames channel (s.writable (target - out.size))
      | none => out) out).toList
      = out.toList ++ (path.flatMap (takenAt slices channel)).take (target - out.size) := by
  induction path generalizing out with
  | nil => simp
  | cons here rest ih =>
    rw [List.foldl_cons, ih, List.flatMap_cons]
    cases hs : slices[here]? with
    | none =>
      have htaken : takenAt slices channel here = [] := by
        rw [takenAt, hs]
        rfl
      rw [htaken, List.nil_append]
    | some s =>
      have hwithin := hslices s (Array.mem_of_getElem? hs)
      have htaken : takenAt slices channel here = s.taken channel := by
        rw [takenAt, hs]
        rfl
      have hlen := Slice.length_taken hwithin
      have hframes := Slice.frames_eq hwithin (min_le_left s.count (target - out.size))
      have hsize : (s.frames channel (min s.count (target - out.size))).size
          = min s.count (target - out.size) := by
        rw [← Array.length_toList, hframes, List.length_take, hlen]
        omega
      dsimp only
      rw [Slice.writable_eq hwithin, htaken, Array.toList_append, Array.size_append, hsize,
        hframes, List.take_append, List.append_assoc, hlen]
      congr 2
      · rw [min_comm, ← hlen, ← List.take_eq_take_min]
      · congr 1
        omega

lemma length_flatMap_takenAt (hslices : ∀ s ∈ slices, s.Within channel.size) :
    (path.toList.flatMap (takenAt slices channel)).length
      = (path.toList.map (countAt slices)).sum := by
  rw [List.length_flatMap]
  simp only [length_takenAt hslices]

/-- A path that plays long enough gives the first frames of what it plays, and no silence. -/
theorem toList_renderChannel (hslices : ∀ s ∈ slices, s.Within channel.size)
    (hlong : target ≤ (path.toList.map (countAt slices)).sum) :
    (renderChannel slices path target channel).toList
      = (path.toList.flatMap (takenAt slices channel)).take target := by
  unfold renderChannel
  generalize hout : path.foldl _ #[] = emitted
  have hemitted : emitted.toList = (path.toList.flatMap (takenAt slices channel)).take target := by
    rw [← hout, ← Array.foldl_toList]
    exact toList_foldl_render hslices path.toList #[]
  have hsize : emitted.size = target := by
    rw [← Array.length_toList, hemitted, List.length_take, length_flatMap_takenAt hslices,
      min_eq_left hlong]
  rw [Array.toList_append, hemitted, hsize, Nat.sub_self, Array.replicate_zero,
    Array.toList_empty, List.append_nil]

/-- Each frame of the output is a frame of the one visit that its place is in. -/
theorem getElem?_renderChannel {k f here : ℕ} {s : Slice}
    (hslices : ∀ s ∈ slices, s.Within channel.size)
    (hlong : target ≤ (path.toList.map (countAt slices)).sum) (hf : f < target)
    (hk : path[k]? = some here) (hs : slices[here]? = some s)
    (hle : amountBefore (countAt slices) path.toList k ≤ f)
    (hlt : f < amountBefore (countAt slices) path.toList k + countAt slices here) :
    (renderChannel slices path target channel)[f]?
      = channel[s.first + (f - amountBefore (countAt slices) path.toList k)]? := by
  have hcount : countAt slices here = s.count := by
    rw [countAt, hs]
    rfl
  have htaken : takenAt slices channel here = s.taken channel := by
    rw [takenAt, hs]
    rfl
  have hlength : (fun i => (takenAt slices channel i).length) = countAt slices :=
    funext fun i => length_takenAt hslices i
  rw [← Array.getElem?_toList] at hk
  have hpart := @getElem?_flatMap_part _ k f _ _ (takenAt slices channel) hk
  rw [hlength, length_takenAt hslices] at hpart
  rw [← Array.getElem?_toList, toList_renderChannel hslices hlong, List.getElem?_take_of_lt hf,
    hpart hle hlt, htaken, Slice.getElem?_taken (by omega)]

/-- The output has the target number of frames. -/
theorem size_renderChannel (hslices : ∀ s ∈ slices, s.Within channel.size)
    (hlong : target ≤ (path.toList.map (countAt slices)).sum) :
    (renderChannel slices path target channel).size = target := by
  rw [← Array.length_toList, toList_renderChannel hslices hlong, List.length_take,
    length_flatMap_takenAt hslices, min_eq_left hlong]

end

end EndlessRemix
