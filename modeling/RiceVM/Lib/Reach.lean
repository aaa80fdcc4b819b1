import Mathlib.Algebra.BigOperators.Group.Finset.Basic
import Mathlib.Algebra.Order.BigOperators.Group.Finset
import Mathlib.Logic.Relation

/-!
Marking what a worklist reaches in a graph. Nodes that `skip` names are not part of
the graph; a node is expanded once, when it is first marked.
-/
namespace Reach
variable {α : Type} (next : α → List α) (skip : α → Bool)

/-- A step to a node of the graph. -/
def Edge (a b : α) : Prop := b ∈ next a ∧ skip b = false

/-- What the roots reach. -/
def Reached (roots : List α) (a : α) : Prop :=
  ∃ r ∈ roots, skip r = false ∧ Relation.ReflTransGen (Edge next skip) r a

def markLoop [DecidableEq α] : Nat → List α → List α → List α
  | 0, _, marked | _, [], marked => marked
  | fuel + 1, a :: work, marked =>
    if skip a = true ∨ a ∈ marked then markLoop fuel work marked
    else markLoop fuel (next a ++ work) (a :: marked)

variable {next skip}

theorem Reached.step {roots : List α} {a b : α} (h : Reached next skip roots a)
    (hb : Edge next skip a b) : Reached next skip roots b := by
  obtain ⟨r, hr, hskip, hpath⟩ := h
  exact ⟨r, hr, hskip, hpath.tail hb⟩

theorem Reached.mono {roots roots' : List α} {a : α} (h : Reached next skip roots a)
    (hsub : ∀ r ∈ roots, r ∈ roots') : Reached next skip roots' a := by
  obtain ⟨r, hr, hrest⟩ := h
  exact ⟨r, hsub r hr, hrest⟩

/-- The unmarked children of marked nodes are on the worklist. -/
def Frontier (next : α → List α) (skip : α → Bool) (work marked : List α) : Prop :=
  ∀ a ∈ marked, ∀ b, Edge next skip a b → b ∈ marked ∨ b ∈ work

/-- What a marked node reaches is marked, or reached from the worklist. -/
theorem Frontier.reached {work marked : List α} (h : Frontier next skip work marked) {r a : α}
    (hr : r ∈ marked) (hpath : Relation.ReflTransGen (Edge next skip) r a) :
    a ∈ marked ∨ Reached next skip work a := by
  induction hpath with
  | refl => exact .inl hr
  | tail _ hedge ih =>
      rcases ih with hmem | hreach
      · rcases h _ hmem _ hedge with hmem | hmem
        · exact .inl hmem
        · exact .inr ⟨_, hmem, hedge.2, .refl⟩
      · exact .inr (hreach.step hedge)

variable [DecidableEq α]

/-- Work that is left: the worklist and the children of the nodes still to be expanded. -/
def cost (next : α → List α) (nodes : Finset α) (work marked : List α) : Nat :=
  work.length + ∑ a ∈ nodes with a ∉ marked, (next a).length

theorem cost_mark {nodes : Finset α} (hnodes : ∀ a, next a ≠ [] → a ∈ nodes) {a : α}
    (work : List α) {marked : List α} (ha : a ∉ marked) :
    cost next nodes (next a ++ work) (a :: marked) < cost next nodes (a :: work) marked := by
  simp only [cost, List.length_append, List.length_cons]
  have hsub : nodes.filter (· ∉ a :: marked) = (nodes.filter (· ∉ marked)).erase a := by
    ext b
    simp only [Finset.mem_filter, Finset.mem_erase, List.mem_cons, not_or]
    tauto
  by_cases hmem : a ∈ nodes
  · have hmem : a ∈ nodes.filter (· ∉ marked) := Finset.mem_filter.mpr ⟨hmem, ha⟩
    have := Finset.add_sum_erase _ (fun b => (next b).length) hmem
    rw [hsub]
    omega
  · have hnil : next a = [] := by
      by_contra hne
      exact hmem (hnodes a hne)
    rw [hsub, Finset.erase_eq_of_notMem (fun h => hmem (Finset.mem_filter.mp h).1), hnil,
      List.length_nil]
    omega

/-- What the loop marks: the old marks and what the worklist reaches, no more and no less. -/
theorem mem_markLoop {nodes : Finset α} (hnodes : ∀ a, next a ≠ [] → a ∈ nodes) {fuel : Nat}
    {work marked : List α} (hfuel : cost next nodes work marked < fuel)
    (hfront : Frontier next skip work marked) (a : α) :
    a ∈ markLoop next skip fuel work marked ↔ a ∈ marked ∨ Reached next skip work a := by
  induction fuel generalizing work marked with
  | zero => omega
  | succ fuel ih =>
      cases work with
      | nil =>
          refine ⟨.inl, fun h => h.resolve_right ?_⟩
          rintro ⟨r, hr, _⟩
          cases hr
      | cons b work =>
          simp only [markLoop]
          split
          · next hb =>
              have hcost : cost next nodes work marked < fuel := by
                simp only [cost, List.length_cons] at hfuel ⊢
                omega
              have hdrop : ∀ c, Edge next skip c b → b ∈ marked := fun c hc =>
                hb.resolve_left (by rw [hc.2]; decide)
              have hfront' : Frontier next skip work marked := by
                intro c hc d hd
                rcases hfront c hc d hd with hmem | hmem
                · exact .inl hmem
                · rcases List.mem_cons.mp hmem with rfl | hmem
                  · exact .inl (hdrop c hd)
                  · exact .inr hmem
              rw [ih hcost hfront']
              refine ⟨fun h => h.imp_right (·.mono fun r hr => List.mem_cons_of_mem b hr), ?_⟩
              rintro (h | ⟨r, hr, hskip, hpath⟩)
              · exact .inl h
              · rcases List.mem_cons.mp hr with rfl | hr
                · have hmarked : r ∈ marked := hb.resolve_left (by rw [hskip]; decide)
                  exact hfront'.reached hmarked hpath
                · exact .inr ⟨r, hr, hskip, hpath⟩
          · next hb =>
              obtain ⟨hskip, hnew⟩ := not_or.mp hb
              have hskip : skip b = false := Bool.eq_false_iff.mpr hskip
              have hcost : cost next nodes (next b ++ work) (b :: marked) < fuel := by
                have := cost_mark hnodes work hnew
                omega
              have hfront' : Frontier next skip (next b ++ work) (b :: marked) := by
                intro c hc d hd
                rcases List.mem_cons.mp hc with rfl | hc
                · exact .inr (List.mem_append_left _ hd.1)
                · rcases hfront c hc d hd with hmem | hmem
                  · exact .inl (List.mem_cons_of_mem _ hmem)
                  · rcases List.mem_cons.mp hmem with rfl | hmem
                    · exact .inl (List.mem_cons_self ..)
                    · exact .inr (List.mem_append_right _ hmem)
              rw [ih hcost hfront']
              have hself : Reached next skip (b :: work) b :=
                ⟨b, List.mem_cons_self .., hskip, .refl⟩
              constructor
              · rintro (h | ⟨r, hr, hrskip, hpath⟩)
                · rcases List.mem_cons.mp h with rfl | h
                  · exact .inr hself
                  · exact .inl h
                · rcases List.mem_append.mp hr with hr | hr
                  · exact .inr ⟨b, List.mem_cons_self .., hskip,
                      .trans (.single ⟨hr, hrskip⟩) hpath⟩
                  · exact .inr ⟨r, List.mem_cons_of_mem b hr, hrskip, hpath⟩
              · rintro (h | ⟨r, hr, hrskip, hpath⟩)
                · exact .inl (List.mem_cons_of_mem _ h)
                · rcases List.mem_cons.mp hr with rfl | hr
                  · rcases hpath.cases_head with rfl | ⟨c, hedge, hpath⟩
                    · exact .inl (List.mem_cons_self ..)
                    · exact .inr ⟨c, List.mem_append_left _ hedge.1, hedge.2, hpath⟩
                  · exact .inr ⟨r, List.mem_append_right _ hr, hrskip, hpath⟩

/-- A loop with enough fuel ends by itself. -/
theorem markLoop_fuel {nodes : Finset α} (hnodes : ∀ a, next a ≠ [] → a ∈ nodes) {fuel : Nat}
    {work marked : List α} (hfuel : cost next nodes work marked < fuel) (more : Nat) :
    markLoop next skip (fuel + more) work marked = markLoop next skip fuel work marked := by
  induction fuel generalizing work marked with
  | zero => omega
  | succ fuel ih =>
      rw [Nat.add_right_comm]
      cases work with
      | nil => rfl
      | cons b work =>
          simp only [markLoop]
          split
          · refine ih ?_
            simp only [cost, List.length_cons] at hfuel ⊢
            omega
          · next hb =>
              refine ih ?_
              have := cost_mark hnodes work (not_or.mp hb).2
              omega

end Reach
