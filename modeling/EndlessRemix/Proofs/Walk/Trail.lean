import EndlessRemix.Walk.Path
import Mathlib

/-!
# The trail of a walk

A walk keeps its path, two counters and the random source, and these belong together: every visit is
followed by one decision, a jump or a step, and the decisions fix all the rest. `Trail` says so of a
walk under way; one visit preserves it, and so does a whole run.
-/

namespace EndlessRemix

variable {R σ : Type}

/-! ## Draws in a row -/

namespace Draws

/-- The source after a number of draws. -/
def after (d : Draws R σ) : ℕ → σ → σ
  | 0, source => source
  | n + 1, source => (d.draw (d.after n source)).2

/-- The value of a draw, counted from zero. -/
def value (d : Draws R σ) (n : ℕ) (source : σ) : R := (d.draw (d.after n source)).1

end Draws

/-! ## Decisions -/

/-- How many draws come before the decision after visit number `k`: one for every earlier decision,
and another for every jump among them. -/
def drawsBefore (decisions : List Bool) (k : ℕ) : ℕ := k + (decisions.take k).count true

/-- The beat that is visited at a position: past the last of `count` beats it is the first. -/
def wrapped (count position : ℕ) : ℕ := if count ≤ position then 0 else position

lemma wrapped_of_lt {count position : ℕ} (h : position < count) :
    wrapped count position = position := if_neg (by omega)

lemma wrapped_lt {count : ℕ} (hpos : 0 < count) (position : ℕ) :
    wrapped count position < count := by
  unfold wrapped
  split_ifs with hle
  · exact hpos
  · exact not_le.mp hle

/-- A step from a beat goes around. -/
lemma wrapped_succ {count here : ℕ} (h : here < count) :
    wrapped count (here + 1) = (here + 1) % count := by
  unfold wrapped
  split_ifs with hle
  · obtain rfl : count = here + 1 := by omega
    rw [Nat.mod_self]
  · rw [Nat.mod_eq_of_lt (by omega)]

namespace WalkPlan

/-- The neighbors of the beat at a position. -/
def neighborsAt (plan : WalkPlan R σ) (here : ℕ) : Array (Neighbor R) :=
  (plan.neighbors[here]?).getD #[]

/-- Every neighbor is a beat of the plan. -/
def Closed (plan : WalkPlan R σ) : Prop :=
  ∀ here, ∀ neighbor ∈ plan.neighborsAt here,
    ∃ j < plan.slices.size, neighbor.dest = .beat j

variable [Scalar R]

/-- The decision at a beat: a jump or a step, by the draw of this number. -/
def decision (plan : WalkPlan R σ) (source : σ) (m here : ℕ) : Bool :=
  decide (plan.draws.value m source < plan.branchProbability ∧ 0 < (plan.neighborsAt here).size)

/-- Where a decision leads: a jump to the neighbor that the next draw chooses, a step to the next
position. -/
def Heads (plan : WalkPlan R σ) (source : σ) (m here : ℕ) (jumps : Bool) (position : ℕ) : Prop :=
  if jumps then
    ∃ neighbor, chooseNeighbor? (plan.neighborsAt here) (plan.draws.value (m + 1) source)
      = some neighbor ∧ neighbor.dest = .beat position
  else position = here + 1

end WalkPlan

variable [Scalar R]

/-- The chosen neighbor stands where the draw picks. -/
lemma exists_of_chooseNeighbor? {neighbors : Array (Neighbor R)} {draw : R}
    {neighbor : Neighbor R} (h : chooseNeighbor? neighbors draw = some neighbor) :
    ∃ position : ℕ, Scalar.whole (pickIndex draw (Scalar.ofNat neighbors.size)) = .int position
      ∧ neighbors[position]? = some neighbor := by
  unfold chooseNeighbor? at h
  split at h
  · rename_i position hwhole
    exact ⟨position, hwhole, h⟩
  · cases h

lemma mem_of_chooseNeighbor? {neighbors : Array (Neighbor R)} {draw : R} {neighbor : Neighbor R}
    (h : chooseNeighbor? neighbors draw = some neighbor) : neighbor ∈ neighbors := by
  obtain ⟨position, -, hget⟩ := exists_of_chooseNeighbor? h
  exact Array.mem_of_getElem? hget

/-- A walk passes the last beat exactly by a step from it. -/
lemma WalkPlan.Heads.le_iff {plan : WalkPlan R σ} {source : σ} {m here position : ℕ} {jumps : Bool}
    (hclosed : plan.Closed) (hhere : here < plan.slices.size)
    (h : plan.Heads source m here jumps position) :
    plan.slices.size ≤ position ↔ here = plan.slices.size - 1 ∧ jumps = false := by
  unfold WalkPlan.Heads at h
  cases jumps with
  | true =>
    obtain ⟨neighbor, hchoose, hdest⟩ := h
    obtain ⟨j, hj, hdest'⟩ := hclosed here neighbor (mem_of_chooseNeighbor? hchoose)
    obtain rfl := Destination.beat.inj (hdest.symm.trans hdest')
    simp only [Bool.true_eq_false, and_false, iff_false]
    omega
  | false =>
    obtain rfl : position = here + 1 := h
    simp only [and_true]
    omega

/-! ## One visit -/

namespace Walker

variable {plan : WalkPlan R σ} {source : σ}

omit [Scalar R] in
lemma arrive_eq (count position : ℕ) (w : Walker σ) :
    w.arrive count position = (wrapped count position,
      { w with
        path := w.path.push (wrapped count position)
        wraparounds := w.wraparounds + (decide (count ≤ position)).toNat }) := by
  unfold arrive wrapped
  by_cases h : count ≤ position
  · rw [if_pos h, if_pos h, decide_eq_true h]
    rfl
  · rw [if_neg h, if_neg h, decide_eq_false h]
    rfl

/-- A decision makes one draw, and a second one for a jump. -/
lemma leave_eq {w : Walker σ} {m : ℕ} (hsource : w.source = plan.draws.after m source)
    (here : ℕ) :
    w.leave plan here =
      if plan.decision source m here then
        match chooseNeighbor? (plan.neighborsAt here) (plan.draws.value (m + 1) source) with
        | some neighbor => .ok { w with
            next := neighbor.dest.position? plan.slices.size
            jumps := w.jumps + 1
            source := plan.draws.after (m + 2) source }
        | none => .error ⟨plan.draws.after (m + 2) source⟩
      else .ok { w with next := some (here + 1), source := plan.draws.after (m + 1) source } := by
  rw [leave, hsource]
  unfold WalkPlan.decision
  simp only [decide_eq_true_eq]
  rfl

/-- A walk that goes on goes where its decision leads. -/
lemma leave_ok {w left : Walker σ} {here m : ℕ} (hclosed : plan.Closed)
    (hsource : w.source = plan.draws.after m source) (h : w.leave plan here = .ok left) :
    ∃ position, plan.Heads source m here (plan.decision source m here) position
      ∧ left = { w with
          next := some position
          jumps := w.jumps + (plan.decision source m here).toNat
          source := plan.draws.after (m + 1 + (plan.decision source m here).toNat) source } := by
  rw [leave_eq hsource] at h
  cases hd : plan.decision source m here with
  | true =>
    rw [hd, if_pos rfl] at h
    cases hchoose : chooseNeighbor? (plan.neighborsAt here) (plan.draws.value (m + 1) source) with
    | none =>
      rw [hchoose] at h
      cases h
    | some neighbor =>
      rw [hchoose] at h
      obtain ⟨j, -, hdest⟩ := hclosed here neighbor (mem_of_chooseNeighbor? hchoose)
      refine ⟨j, ⟨neighbor, hchoose, hdest⟩, ?_⟩
      rw [← Except.ok.inj h, hdest]
      rfl
  | false =>
    rw [hd, if_neg Bool.false_ne_true] at h
    exact ⟨here + 1, rfl, (Except.ok.inj h).symm⟩

end Walker

/-! ## The trail -/

/-- A path with its counters and the random source after it, and the decision after each visit. The
decisions are fixed by the draws, each visit but the first is where a decision leads, and the
counters count the jumps and the steps from the last beat to another visit. -/
structure Trail (plan : WalkPlan R σ) (source : σ) (decisions : List Bool) (path : Array ℕ)
    (jumps wraparounds : ℕ) (final : σ) : Prop where
  length_eq : decisions.length = path.size
  jumps_eq : jumps = decisions.count true
  final_eq : final = plan.draws.after (path.size + jumps) source
  visited : ∀ {k here : ℕ}, path[k]? = some here → here < plan.slices.size
  first : ∀ {here : ℕ}, path[0]? = some here → here = 0
  decided : ∀ {k here : ℕ}, path[k]? = some here →
    decisions[k]? = some (plan.decision source (drawsBefore decisions k) here)
  leads : ∀ {k here next : ℕ} {jumped}, path[k]? = some here → decisions[k]? = some jumped →
    path[k + 1]? = some next →
    ∃ position, plan.Heads source (drawsBefore decisions k) here jumped position
      ∧ next = wrapped plan.slices.size position
  wraparounds_eq : wraparounds = (List.range (path.size - 1)).countP fun k =>
    path[k]? == some (plan.slices.size - 1) && decisions[k]? == some false

/-- A walk under way has a trail, and is about to visit where its last decision leads. -/
structure OnTrail (plan : WalkPlan R σ) (source : σ) (decisions : List Bool) (w : Walker σ) :
    Prop where
  trail : Trail plan source decisions w.path w.jumps w.wraparounds w.source
  start : w.path.size = 0 → w.next = some 0
  pending : ∀ {k here : ℕ} {jumped}, k + 1 = w.path.size → w.path[k]? = some here →
    decisions[k]? = some jumped →
    ∃ position, plan.Heads source (drawsBefore decisions k) here jumped position
      ∧ w.next = some position

section

variable {plan : WalkPlan R σ} {source : σ} {decisions : List Bool} {w : Walker σ}

/-- Later decisions do not change how many draws came before. -/
lemma drawsBefore_append {k : ℕ} (h : k ≤ decisions.length) (b : Bool) :
    drawsBefore (decisions ++ [b]) k = drawsBefore decisions k := by
  unfold drawsBefore
  rw [List.take_append_of_le_length h]

/-- A walk before its first visit has no decisions behind it. -/
lemma onTrail_start : OnTrail plan source [] (Walker.start source) where
  trail :=
    { length_eq := rfl
      jumps_eq := rfl
      final_eq := rfl
      visited := fun h => by cases h
      first := fun h => by cases h
      decided := fun h => by cases h
      leads := fun h => by cases h
      wraparounds_eq := rfl }
  start _ := rfl
  pending _ h := by cases h

/-- The last visit of a walk, and the decision after it. -/
lemma Trail.exists_last {path : Array ℕ} {jumps wraparounds k : ℕ} {final : σ}
    (h : Trail plan source decisions path jumps wraparounds final) (hk : k < path.size) :
    ∃ here jumped, path[k]? = some here ∧ decisions[k]? = some jumped := by
  have hk' : k < decisions.length := h.length_eq ▸ hk
  exact ⟨path[k], decisions[k], Array.getElem?_eq_getElem hk, List.getElem?_eq_getElem hk'⟩

/-- The draws before the next decision are all the draws made so far. -/
lemma Trail.drawsBefore_size {path : Array ℕ} {jumps wraparounds : ℕ} {final : σ}
    (h : Trail plan source decisions path jumps wraparounds final) :
    drawsBefore decisions path.size = path.size + jumps := by
  rw [drawsBefore, ← h.length_eq, List.take_length, h.jumps_eq]

/-- The decisions made so far stay what they are. -/
lemma Trail.getElem?_append {path : Array ℕ} {jumps wraparounds k : ℕ} {final : σ} {b : Bool}
    (h : Trail plan source decisions path jumps wraparounds final) (hk : k < path.size) :
    (decisions ++ [b])[k]? = decisions[k]? :=
  List.getElem?_append_left (h.length_eq ▸ hk)

/-- The next decision goes with the next visit. -/
lemma Trail.getElem?_concat {path : Array ℕ} {jumps wraparounds : ℕ} {final : σ} {b : Bool}
    (h : Trail plan source decisions path jumps wraparounds final) :
    (decisions ++ [b])[path.size]? = some b := by
  rw [← h.length_eq]
  exact List.getElem?_concat_length

/-- The wraparounds of a longer path: the last decision is followed by a visit now. -/
lemma OnTrail.wraparounds_push {position here : ℕ} (b : Bool) (hclosed : plan.Closed)
    (hpos : 0 < plan.slices.size) (h : OnTrail plan source decisions w)
    (hnext : w.next = some position) :
    w.wraparounds + (decide (plan.slices.size ≤ position)).toNat
      = (List.range ((w.path.push here).size - 1)).countP fun k =>
          (w.path.push here)[k]? == some (plan.slices.size - 1)
            && (decisions ++ [b])[k]? == some false := by
  have hold : ∀ k < w.path.size, (w.path.push here)[k]? = w.path[k]?
      ∧ (decisions ++ [b])[k]? = decisions[k]? := by
    intro k hk
    rw [Array.getElem?_push, if_neg (by omega), h.trail.getElem?_append hk]
    exact ⟨rfl, rfl⟩
  rw [h.trail.wraparounds_eq, Array.size_push, Nat.add_sub_cancel]
  rcases hs : w.path.size with _ | s
  · -- the first visit wraps nothing
    obtain rfl : 0 = position := Option.some.inj ((h.start hs).symm.trans hnext)
    rw [decide_eq_false (by omega)]
    rfl
  · obtain ⟨last, jumped, hlast, hjumped⟩ := h.trail.exists_last (k := s) (by omega)
    obtain ⟨position', hheads, hnext'⟩ := h.pending hs.symm hlast hjumped
    obtain rfl : position = position' := Option.some.inj (hnext.symm.trans hnext')
    have hiff := hheads.le_iff hclosed (h.trail.visited hlast)
    rw [Nat.add_sub_cancel, List.range_succ, List.countP_append, List.countP_singleton]
    congr 1
    · apply List.countP_congr
      intro k hk
      rw [List.mem_range] at hk
      rw [(hold k (by omega)).1, (hold k (by omega)).2]
    · rw [(hold s (by omega)).1, (hold s (by omega)).2, hlast, hjumped]
      by_cases hwrap : plan.slices.size ≤ position
      · obtain ⟨rfl, rfl⟩ := hiff.mp hwrap
        rw [decide_eq_true hwrap]
        simp
      · rw [decide_eq_false hwrap, if_neg]
        · rfl
        · rw [Bool.and_eq_true, beq_iff_eq, beq_iff_eq, Option.some_inj, Option.some_inj]
          exact mt hiff.mpr hwrap

/-- An entry of a longer path is the last one, or was there before. -/
lemma of_getElem?_push {path : Array ℕ} {k here there : ℕ}
    (h : (path.push here)[k]? = some there) :
    k = path.size ∧ there = here ∨ k < path.size ∧ path[k]? = some there := by
  rw [Array.getElem?_push] at h
  split_ifs at h with hk
  · exact .inl ⟨hk, (Option.some.inj h).symm⟩
  · exact .inr ⟨(Array.getElem?_eq_some_iff.mp h).1, h⟩

/-- One more visit extends a trail, if it is where the last decision leads, and so does one more
decision, if the draws fix it so. -/
theorem Trail.push {path : Array ℕ} {jumps wraparounds wraps here : ℕ} {final : σ} {jumped : Bool}
    (h : Trail plan source decisions path jumps wraparounds final)
    (hhere : here < plan.slices.size) (hfirst : path.size = 0 → here = 0)
    (hjumped : plan.decision source (drawsBefore decisions path.size) here = jumped)
    (hleads : ∀ {k last : ℕ} {turned}, k + 1 = path.size → path[k]? = some last →
      decisions[k]? = some turned →
      ∃ position, plan.Heads source (drawsBefore decisions k) last turned position
        ∧ here = wrapped plan.slices.size position)
    (hwraps : wraps = (List.range ((path.push here).size - 1)).countP fun k =>
      (path.push here)[k]? == some (plan.slices.size - 1)
        && (decisions ++ [jumped])[k]? == some false) :
    Trail plan source (decisions ++ [jumped]) (path.push here) (jumps + jumped.toNat) wraps
      (plan.draws.after (drawsBefore decisions path.size + 1 + jumped.toNat) source) where
  length_eq := by
    rw [List.length_append, h.length_eq, Array.size_push]
    rfl
  jumps_eq := by
    rw [List.count_append, ← h.jumps_eq]
    cases jumped <;> rfl
  final_eq := by
    rw [h.drawsBefore_size, Array.size_push]
    congr 1
    omega
  visited {k there} hk := by
    rcases of_getElem?_push hk with ⟨-, rfl⟩ | ⟨-, hk⟩
    · exact hhere
    · exact h.visited hk
  first {there} h0 := by
    rcases of_getElem?_push h0 with ⟨hs, rfl⟩ | ⟨-, h0⟩
    · exact hfirst hs.symm
    · exact h.first h0
  decided {k there} hk := by
    rcases of_getElem?_push hk with ⟨rfl, rfl⟩ | ⟨hlt, hk⟩
    · rw [h.getElem?_concat, drawsBefore_append h.length_eq.ge, hjumped]
    · rw [h.getElem?_append hlt, drawsBefore_append (h.length_eq ▸ hlt.le)]
      exact h.decided hk
  leads {k there next turned} hk hj hn := by
    have hlt : k < path.size := by
      rcases of_getElem?_push hn with ⟨hlast, -⟩ | ⟨hlast, -⟩ <;> omega
    rw [h.getElem?_append hlt] at hj
    rw [drawsBefore_append (h.length_eq ▸ hlt.le)]
    rw [Array.getElem?_push, if_neg (by omega)] at hk
    rcases of_getElem?_push hn with ⟨hlast, rfl⟩ | ⟨-, hn⟩
    · exact hleads hlast hk hj
    · exact h.leads hk hj hn
  wraparounds_eq := hwraps

/-- A visit and the decision after it extend the trail. -/
theorem OnTrail.visit {position : ℕ} {left : Walker σ} (hclosed : plan.Closed)
    (hpos : 0 < plan.slices.size) (h : OnTrail plan source decisions w)
    (hnext : w.next = some position)
    (hleave : (w.arrive plan.slices.size position).2.leave plan
      (w.arrive plan.slices.size position).1 = .ok left) :
    ∃ jumped, OnTrail plan source (decisions ++ [jumped]) left := by
  have htrail := h.trail
  rw [Walker.arrive_eq] at hleave
  have hsource : w.source = plan.draws.after (drawsBefore decisions w.path.size) source := by
    rw [htrail.drawsBefore_size]
    exact htrail.final_eq
  obtain ⟨position', hheads, rfl⟩ := Walker.leave_ok hclosed (by exact hsource) hleave
  refine ⟨_, htrail.push (wrapped_lt hpos position) ?_ rfl ?_
    (h.wraparounds_push _ hclosed hpos hnext), ?_, ?_⟩
  · -- the first visit is where the walk starts
    intro h0
    obtain rfl := Option.some.inj ((h.start h0).symm.trans hnext)
    rw [wrapped, ite_self]
  · intro k last turned hk hlast hturned
    obtain ⟨p, hp, hnext'⟩ := h.pending hk hlast hturned
    obtain rfl := Option.some.inj (hnext.symm.trans hnext')
    exact ⟨position, hp, rfl⟩
  · intro h0
    rw [Array.size_push] at h0
    omega
  · intro k last turned hk hlast hturned
    obtain rfl : k = w.path.size := by
      rw [Array.size_push] at hk
      omega
    rw [Array.getElem?_push_size] at hlast
    rw [htrail.getElem?_concat] at hturned
    rw [drawsBefore_append htrail.length_eq.ge, ← Option.some.inj hlast, ← Option.some.inj hturned]
    exact ⟨position', hheads, rfl⟩

/-- What is emitted is no part of the trail. -/
lemma OnTrail.emit (h : OnTrail plan source decisions w) (emitted : ℕ) :
    OnTrail plan source decisions { w with emitted } := ⟨h.trail, h.start, h.pending⟩

/-- A run extends the trail of a walk to the trail of the journey. -/
theorem OnTrail.run {target fuel : ℕ} {journey : Journey σ} (hclosed : plan.Closed)
    (hpos : 0 < plan.slices.size) (h : OnTrail plan source decisions w)
    (hrun : Walker.run plan target fuel w = .ok journey) :
    ∃ decisions, Trail plan source decisions journey.path journey.jumps journey.wraparounds
      journey.source := by
  induction fuel generalizing decisions w with
  | zero =>
    obtain rfl := Except.ok.inj hrun
    exact ⟨decisions, h.trail⟩
  | succ fuel ih =>
    rw [Walker.run] at hrun
    by_cases htarget : w.emitted < target
    · rw [if_pos htarget] at hrun
      cases hnext : w.next with
      | none =>
        rw [hnext] at hrun
        cases hrun
      | some position =>
        rw [hnext] at hrun
        dsimp only at hrun
        cases hleave : (w.arrive plan.slices.size position).2.leave plan
            (w.arrive plan.slices.size position).1 with
        | error lost =>
          rw [hleave] at hrun
          cases hrun
        | ok left =>
          rw [hleave] at hrun
          obtain ⟨jumped, hleft⟩ := h.visit hclosed hpos hnext hleave
          dsimp only at hrun
          split at hrun
          · exact ih (hleft.emit _) hrun
          · obtain rfl := Except.ok.inj hrun
            exact ⟨_, hleft.trail⟩
          · obtain rfl := Except.ok.inj hrun
            exact ⟨_, hleft.trail⟩
    · rw [if_neg htarget] at hrun
      obtain rfl := Except.ok.inj hrun
      exact ⟨decisions, h.trail⟩

/-- Every walk has a trail. -/
theorem exists_trail {target : ℕ} {journey : Journey σ} (hclosed : plan.Closed)
    (hpos : 0 < plan.slices.size) (h : walk plan target source = .ok journey) :
    ∃ decisions, Trail plan source decisions journey.path journey.jumps journey.wraparounds
      journey.source :=
  onTrail_start.run hclosed hpos h

/-! ## Walks without edges -/

omit [Scalar R] in
/-- Without neighbors there is nowhere else to go. -/
lemma closed_of_edgeless (hedgeless : ∀ here, plan.neighborsAt here = #[]) : plan.Closed := by
  intro here neighbor hneighbor
  rw [hedgeless] at hneighbor
  exact absurd hneighbor (Array.not_mem_empty _)

/-- A trail without edges has no jump, and visits all positions in order, again and again. -/
theorem Trail.of_edgeless {path : Array ℕ} {jumps wraparounds : ℕ} {final : σ}
    (hedgeless : ∀ here, plan.neighborsAt here = #[])
    (h : Trail plan source decisions path jumps wraparounds final) :
    jumps = 0 ∧ ∀ k < path.size, path[k]? = some (k % plan.slices.size) := by
  -- a jump needs a neighbor, whatever is drawn
  have hstep : ∀ {k}, k < path.size → decisions[k]? = some false := by
    intro k hk
    rw [h.decided (Array.getElem?_eq_getElem hk), WalkPlan.decision, hedgeless]
    simp
  constructor
  · rw [h.jumps_eq, List.count_eq_zero]
    intro hjump
    obtain ⟨k, hk⟩ := List.mem_iff_getElem?.mp hjump
    have hlt : k < path.size := h.length_eq ▸ (List.getElem?_eq_some_iff.mp hk).1
    rw [hstep hlt] at hk
    cases hk
  · intro k hk
    induction k with
    | zero =>
      have h0 := Array.getElem?_eq_getElem hk
      rw [h0, h.first h0, Nat.zero_mod]
    | succ k ih =>
      have hnext := Array.getElem?_eq_getElem hk
      have hhere := ih (by omega)
      obtain ⟨position, hposition, hwrapped⟩ := h.leads hhere (hstep (by omega)) hnext
      obtain rfl : position = k % plan.slices.size + 1 := hposition
      rw [hnext, hwrapped, wrapped_succ (h.visited hhere), Nat.mod_add_mod]

end

end EndlessRemix
