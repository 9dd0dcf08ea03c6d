import EndlessRemix.Proofs.Walk.Playback
import EndlessRemix.Proofs.Walk.Trail

/-!
# Progress of a walk

When every slice has a frame, every neighbor is a beat and every draw chooses one, a walk is never
lost: each visit emits at least one frame, so the visits that it may make are enough to reach the
target.
-/

namespace EndlessRemix

variable {R σ : Type} [Scalar R]

/-- Every jump finds a neighbor, whichever draw chooses it. -/
def WalkPlan.Chooses (plan : WalkPlan R σ) (source : σ) : Prop :=
  ∀ here m, 0 < (plan.neighborsAt here).size →
    ∃ neighbor, chooseNeighbor? (plan.neighborsAt here) (plan.draws.value m source) = some neighbor

/-- A walk that is on the beats: it has somewhere to go, its source was drawn from the first one,
and what it has emitted is what its path plays. -/
structure Underway (plan : WalkPlan R σ) (source : σ) (w : Walker σ) : Prop where
  drawn : ∃ m, w.source = plan.draws.after m source
  heading : ∃ position, w.next = some position
  visited : ∀ here ∈ w.path, here < plan.slices.size
  emitted_eq : w.emitted = (w.path.toList.map (countAt plan.slices)).sum

section

variable {plan : WalkPlan R σ} {source : σ} {w : Walker σ}

omit [Scalar R] in
lemma underway_start : Underway plan source (Walker.start source) where
  drawn := ⟨0, rfl⟩
  heading := ⟨0, rfl⟩
  visited _ h := absurd h (Array.not_mem_empty _)
  emitted_eq := rfl

/-- A walk that can choose leaves every beat, and for a position. -/
lemma Walker.leave_completes (hclosed : plan.Closed) (hchooses : plan.Chooses source) {m : ℕ}
    (hsource : w.source = plan.draws.after m source) (here : ℕ) :
    ∃ left, w.leave plan here = .ok left ∧ left.path = w.path ∧ left.emitted = w.emitted
      ∧ (∃ m, left.source = plan.draws.after m source)
      ∧ ∃ position, left.next = some position := by
  rw [Walker.leave_eq hsource]
  cases hd : plan.decision source m here with
  | true =>
    have hsize : 0 < (plan.neighborsAt here).size := (of_decide_eq_true hd).2
    obtain ⟨neighbor, hchoose⟩ := hchooses here (m + 1) hsize
    obtain ⟨j, -, hdest⟩ := hclosed here neighbor (mem_of_chooseNeighbor? hchoose)
    rw [hchoose, if_pos rfl]
    refine ⟨_, rfl, rfl, rfl, ⟨m + 2, rfl⟩, j, ?_⟩
    rw [hdest]
    rfl
  | false =>
    rw [if_neg Bool.false_ne_true]
    exact ⟨_, rfl, rfl, rfl, ⟨m + 1, rfl⟩, here + 1, rfl⟩

omit [Scalar R] in
/-- A visit of a beat keeps a walk on the beats and emits the beat's frames. -/
lemma Underway.visit {here : ℕ} {left : Walker σ} (h : Underway plan source w)
    (hhere : here < plan.slices.size)
    (hpath : left.path = w.path.push here) (hemitted : left.emitted = w.emitted)
    (hdrawn : ∃ m, left.source = plan.draws.after m source)
    (hheading : ∃ position, left.next = some position) :
    Underway plan source { left with emitted := left.emitted + countAt plan.slices here } where
  drawn := hdrawn
  heading := hheading
  visited there hmem := by
    rw [hpath, Array.mem_push] at hmem
    rcases hmem with hmem | rfl
    · exact h.visited there hmem
    · exact hhere
  emitted_eq := by
    rw [hpath, Array.toList_push, List.map_append, List.sum_append, ← h.emitted_eq, hemitted]
    simp

omit [Scalar R] in
/-- The slice at every position has a frame, if all slices have one. -/
lemma countAt_pos {slices : Array Slice} {here : ℕ}
    (hcount : ∀ s ∈ slices, s.length = .int s.count ∧ 0 < s.count) (hhere : here < slices.size) :
    0 < countAt slices here := by
  rw [countAt, Array.getElem?_eq_getElem hhere, Option.map_some, Option.getD_some]
  exact (hcount _ (Array.getElem_mem hhere)).2

/-- A visit of a slice of known length goes on with that much more emitted. -/
lemma Walker.run_of_leave {target fuel position : ℕ} {left : Walker σ} (hpos : 0 < plan.slices.size)
    (hcount : ∀ s ∈ plan.slices, s.length = .int s.count ∧ 0 < s.count)
    (htarget : w.emitted < target) (hnext : w.next = some position)
    (hleave : (w.arrive plan.slices.size position).2.leave plan
      (w.arrive plan.slices.size position).1 = .ok left) :
    Walker.run plan target (fuel + 1) w
      = Walker.run plan target fuel { left with
          emitted := left.emitted
            + countAt plan.slices (w.arrive plan.slices.size position).1 } := by
  have hhere : (w.arrive plan.slices.size position).1 < plan.slices.size := by
    rw [Walker.arrive_eq]
    exact wrapped_lt hpos position
  obtain ⟨hlength, -⟩ := hcount _ (Array.getElem_mem hhere)
  rw [Walker.run, if_pos htarget, hnext]
  dsimp only
  rw [hleave, countAt, Array.getElem?_eq_getElem hhere, Option.map_some, hlength, Option.map_some,
    Option.getD_some]

/-- A run with enough visits left reaches the target. -/
theorem Underway.run {target fuel : ℕ} (hclosed : plan.Closed) (hchooses : plan.Chooses source)
    (hpos : 0 < plan.slices.size)
    (hcount : ∀ s ∈ plan.slices, s.length = .int s.count ∧ 0 < s.count)
    (h : Underway plan source w) (hfuel : target ≤ w.emitted + fuel) :
    ∃ journey, Walker.run plan target fuel w = .ok journey
      ∧ (∀ here ∈ journey.path, here < plan.slices.size)
      ∧ target ≤ (journey.path.toList.map (countAt plan.slices)).sum := by
  induction fuel generalizing w with
  | zero => exact ⟨_, rfl, h.visited, h.emitted_eq ▸ hfuel⟩
  | succ fuel ih =>
    by_cases htarget : w.emitted < target
    · obtain ⟨m, hsource⟩ := h.drawn
      obtain ⟨position, hnext⟩ := h.heading
      have harrive := Walker.arrive_eq plan.slices.size position w
      obtain ⟨left, hleave, hpath, hemitted, hdrawn, hheading⟩ :=
        Walker.leave_completes (w := (w.arrive plan.slices.size position).2) hclosed hchooses
          (by rw [harrive]; exact hsource) (w.arrive plan.slices.size position).1
      have hhere := wrapped_lt hpos position
      have hframe := countAt_pos hcount hhere
      rw [Walker.run_of_leave hpos hcount htarget hnext hleave]
      rw [harrive] at hpath hemitted ⊢
      refine ih (h.visit hhere hpath hemitted hdrawn hheading) ?_
      -- the slice has at least one frame
      show target ≤ left.emitted + _ + fuel
      rw [hemitted]
      dsimp only
      omega
    · rw [Walker.run, if_neg htarget]
      exact ⟨_, rfl, h.visited, h.emitted_eq ▸ not_lt.mp htarget⟩

/-- A walk that can choose reaches its target and visits beats only. -/
theorem walk_completes (target : ℕ) (hclosed : plan.Closed) (hchooses : plan.Chooses source)
    (hpos : 0 < plan.slices.size)
    (hcount : ∀ s ∈ plan.slices, s.length = .int s.count ∧ 0 < s.count) :
    ∃ journey, walk plan target source = .ok journey
      ∧ (∀ here ∈ journey.path, here < plan.slices.size)
      ∧ target ≤ (journey.path.toList.map (countAt plan.slices)).sum := by
  refine underway_start.run hclosed hchooses hpos hcount ?_
  have hfuel : target + 1 ≤ (target + 1) * (plan.patience + 1) :=
    Nat.le_mul_of_pos_right _ (Nat.succ_pos _)
  omega

end

end EndlessRemix
