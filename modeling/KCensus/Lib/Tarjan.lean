import Mathlib.Data.List.Sort
import Mathlib.Data.Finset.Card
import Mathlib.Logic.Function.Basic
import Mathlib.Logic.Relation
import Mathlib.Data.Finset.Filter

namespace KCensus.Lib.Tarjan

variable {α : Type} [DecidableEq α]

-- An index of zero marks a node the traversal has not reached.
structure Scratch (α : Type) where
  index : α → Nat
  lowlink : α → Nat
  stack : List α
  nextIndex : Nat
  order : List α
  touched : List α

namespace Scratch

def empty : Scratch α := ⟨fun _ => 0, fun _ => 0, [], 1, [], []⟩

def push (s : Scratch α) (u : α) : Scratch α :=
  { s with
    index := Function.update s.index u s.nextIndex
    lowlink := Function.update s.lowlink u s.nextIndex
    stack := u :: s.stack
    nextIndex := s.nextIndex + 1
    touched := u :: s.touched }

def lower (s : Scratch α) (u : α) (k : Nat) : Scratch α :=
  { s with lowlink := Function.update s.lowlink u (min (s.lowlink u) k) }

def component (s : Scratch α) (u : α) : List α := s.stack.takeWhile (· ≠ u) ++ [u]

def below (s : Scratch α) (u : α) : List α := (s.stack.dropWhile (· ≠ u)).tail

def pop (r : α → α → Prop) [DecidableRel r] (s : Scratch α) (u : α) : Scratch α :=
  { s with
    stack := s.below u
    order := s.order ++ (s.component u).insertionSort r }

-- An aborted traversal leaves its unfinished nodes on the stack, free for another root.
def forget (s : Scratch α) : Scratch α :=
  { s with
    index := fun u => if u ∈ s.stack then 0 else s.index u
    lowlink := fun u => if u ∈ s.stack then 0 else s.lowlink u
    stack := [] }

-- What the next traversal finds: the nodes this one reached are as they were before.
def clear (s : Scratch α) : Scratch α where
  index := fun u => if u ∈ s.touched then 0 else s.index u
  lowlink := fun u => if u ∈ s.touched then 0 else s.lowlink u
  stack := s.stack
  nextIndex := 1
  order := []
  touched := []

def Marked (s : Scratch α) : Prop := ∀ u, u ∉ s.touched → s.index u = 0 ∧ s.lowlink u = 0

end Scratch

variable (avail : α → Bool) (succ : α → List α) (r : α → α → Prop) [DecidableRel r]

def scan (connect : α → Scratch α → Bool × Scratch α) (u : α) :
    List α → Scratch α → Bool × Scratch α
  | [], s => (true, s)
  | d :: ds, s =>
      if avail d then
        if s.index d = 0 then
          let (finished, s) := connect d s
          if finished then scan connect u ds (s.lower u (s.lowlink d)) else (false, s)
        else if d ∈ s.stack then scan connect u ds (s.lower u (s.index d))
        else scan connect u ds s
      else (false, s)

def connect : Nat → α → Scratch α → Bool × Scratch α
  | 0, _, s => (false, s)
  | fuel + 1, u, s =>
      let (finished, s) := scan avail (connect fuel) u (succ u) (s.push u)
      if finished then (true, if s.lowlink u = s.index u then s.pop r u else s) else (false, s)

def visitRoots (fuel : Nat) : List α → Scratch α → Scratch α
  | [], s => s
  | root :: roots, s =>
      if s.index root ≠ 0 then visitRoots fuel roots s
      else
        let (finished, s) := connect avail succ r fuel root s
        visitRoots fuel roots (if finished then s else s.forget)

def Reach (u v : α) : Prop := Relation.ReflTransGen (fun a b => b ∈ succ a) u v

-- Whole components, each below everything it depends on.
inductive Emitted : List α → Prop where
  | nil : Emitted []
  | block {order component : List α} : Emitted order →
      (∀ u ∈ component, ∀ v ∈ succ u, v ∈ order ∨ v ∈ component) →
      (∀ u ∈ component, ∀ v ∈ component, Reach succ u v) →
      component.Pairwise r → component.Nodup →
      (∀ u ∈ component, u ∉ order) → (∀ u ∈ component, avail u) →
      Emitted (order ++ component)

variable {avail succ r}

omit [DecidableEq α] in
theorem Reach.refl (u : α) : Reach succ u u := Relation.ReflTransGen.refl

omit [DecidableEq α] in
theorem Reach.trans {u v w : α} (h : Reach succ u v) (h' : Reach succ v w) : Reach succ u w :=
  Relation.ReflTransGen.trans h h'

omit [DecidableEq α] in
theorem Reach.edge {u v : α} (h : v ∈ succ u) : Reach succ u v :=
  Relation.ReflTransGen.single h

namespace Emitted

omit [DecidableEq α] [DecidableRel r] in
theorem closed {order : List α} (h : Emitted avail succ r order) :
    ∀ u ∈ order, ∀ v ∈ succ u, v ∈ order := by
  induction h with
  | nil => simp
  | block _ hclosed _ _ _ _ _ ih =>
    intro u hu v hv
    rcases List.mem_append.1 hu with hu | hu
    · exact List.mem_append_left _ (ih u hu v hv)
    · exact List.mem_append.2 (hclosed u hu v hv)

omit [DecidableEq α] [DecidableRel r] in
theorem nodup {order : List α} (h : Emitted avail succ r order) : order.Nodup := by
  induction h with
  | nil => exact List.nodup_nil
  | block _ _ _ _ hnd hfresh _ ih =>
    exact List.nodup_append.2 ⟨ih, hnd, fun u hu v hv huv => hfresh v hv (huv ▸ hu)⟩

omit [DecidableEq α] [DecidableRel r] in
theorem avail_of_mem {order : List α} (h : Emitted avail succ r order) :
    ∀ u ∈ order, avail u := by
  induction h with
  | nil => simp
  | block _ _ _ _ _ _ ha ih =>
    intro u hu
    rcases List.mem_append.1 hu with hu | hu
    · exact ih u hu
    · exact ha u hu

omit [DecidableEq α] [DecidableRel r] in
theorem reach_mem {order : List α} (h : Emitted avail succ r order) {u v : α}
    (hu : u ∈ order) (huv : Reach succ u v) : v ∈ order := by
  induction huv with
  | refl => exact hu
  | tail _ hvw ih => exact h.closed _ ih _ hvw

-- Of two nodes, the one the other depends on comes first, and `r` decides inside a cycle.
omit [DecidableEq α] [DecidableRel r] in
theorem pairwise {order : List α} (h : Emitted avail succ r order) :
    order.Pairwise fun u v => Reach succ u v → Reach succ v u ∧ r u v := by
  induction h with
  | nil => exact List.Pairwise.nil
  | block ho _ hconn hsorted _ hfresh _ ih =>
    refine List.pairwise_append.2 ⟨ih, ?_, ?_⟩
    · refine hsorted.imp_of_mem ?_
      intro u v hu hv huv _
      exact ⟨hconn v hv u hu, huv⟩
    · intro u hu v hv huv
      exact absurd (ho.reach_mem hu huv) (hfresh v hv)

end Emitted

-- The strongly connected components of a graph, each after those it reaches.
variable (succ r) in
structure Condensed (components : List (List α)) : Prop where
  nonempty : ∀ component ∈ components, component ≠ []
  sorted : ∀ component ∈ components, component.Pairwise r
  connected : ∀ component ∈ components, ∀ u ∈ component, ∀ v,
    v ∈ component ↔ Reach succ u v ∧ Reach succ v u
  below : components.Pairwise fun first next => ∀ u ∈ first, ∀ v ∈ next, ¬ Reach succ u v

omit [DecidableEq α] [DecidableRel r] in
theorem Condensed.append {components : List (List α)} (h : Condensed succ r components)
    {order component : List α} (hflat : components.flatten = order) (hne : component ≠ [])
    (ho : Emitted avail succ r order)
    (hclosed : ∀ u ∈ component, ∀ v ∈ succ u, v ∈ order ∨ v ∈ component)
    (hconn : ∀ u ∈ component, ∀ v ∈ component, Reach succ u v)
    (hsorted : component.Pairwise r) (hfresh : ∀ u ∈ component, u ∉ order) :
    Condensed succ r (components ++ [component]) := by
  have hreach : ∀ u ∈ component, ∀ v, Reach succ u v → v ∈ order ∨ v ∈ component := by
    intro u hu v huv
    induction huv with
    | refl => exact Or.inr hu
    | tail _ hvw ih =>
      rcases ih with hv | hv
      · exact Or.inl (ho.closed _ hv _ hvw)
      · exact hclosed _ hv _ hvw
  refine ⟨?_, ?_, ?_, List.pairwise_append.2 ⟨h.below, List.pairwise_singleton _ _, ?_⟩⟩
  · intro c hc
    rcases List.mem_append.1 hc with hc | hc
    · exact h.nonempty c hc
    · exact List.mem_singleton.1 hc ▸ hne
  · intro c hc
    rcases List.mem_append.1 hc with hc | hc
    · exact h.sorted c hc
    · exact List.mem_singleton.1 hc ▸ hsorted
  · intro c hc u hu v
    rcases List.mem_append.1 hc with hc | hc
    · exact h.connected c hc u hu v
    · rw [List.mem_singleton] at hc
      subst hc
      refine ⟨fun hv => ⟨hconn u hu v hv, hconn v hv u hu⟩, fun hv => ?_⟩
      exact (hreach u hu v hv.1).resolve_left fun hvo => hfresh u hu (ho.reach_mem hvo hv.2)
  · intro c hc c' hc' u hu v hv huv
    rw [List.mem_singleton] at hc'
    subst hc'
    exact hfresh v hv (ho.reach_mem (hflat ▸ List.mem_flatten.2 ⟨c, hc, hu⟩) huv)

omit [DecidableEq α] [DecidableRel r] in
theorem Emitted.condensed {order : List α} (h : Emitted avail succ r order) :
    ∃ components, components.flatten = order ∧ Condensed succ r components := by
  induction h with
  | nil => exact ⟨[], rfl, by simp, by simp, by simp, List.Pairwise.nil⟩
  | @block order component ho hclosed hconn hsorted _ hfresh _ ih =>
    obtain ⟨components, hflat, hcond⟩ := ih
    rcases List.eq_nil_or_concat component with rfl | ⟨l, a, hl⟩
    · exact ⟨components, by rw [hflat, List.append_nil], hcond⟩
    · exact ⟨components ++ [component], by simp [hflat],
        hcond.append hflat (by simp [hl]) ho hclosed hconn hsorted hfresh⟩

variable (avail succ r) in
structure Base (s : Scratch α) : Prop where
  visited : ∀ v, s.index v ≠ 0 ↔ v ∈ s.stack ∨ v ∈ s.order
  disjoint : ∀ v ∈ s.stack, v ∉ s.order
  available : ∀ v ∈ s.stack, avail v
  below_next : ∀ v, s.index v < s.nextIndex
  emitted : Emitted avail succ r s.order

-- `gray` are the nodes whose dependencies are still being scanned.
variable (avail succ r) in
structure Inv (gray : Set α) (s : Scratch α) : Prop extends Base avail succ r s where
  decreasing : s.stack.Pairwise fun u v => s.index v < s.index u
  gray_stack : ∀ g ∈ gray, g ∈ s.stack
  toGray : ∀ v ∈ s.stack, ∃ g ∈ gray, s.index g ≤ s.index v ∧ Reach succ v g
  fromGray : ∀ g ∈ gray, ∀ v ∈ s.stack, s.index g ≤ s.index v → Reach succ g v
  black : ∀ v ∈ s.stack, v ∉ gray → ∀ w ∈ succ v, s.index w ≠ 0

namespace Base

variable {s : Scratch α}

omit [DecidableEq α] [DecidableRel r] in
theorem nextIndex_pos (h : Base avail succ r s) (v : α) : 0 < s.nextIndex :=
  Nat.lt_of_le_of_lt (Nat.zero_le _) (h.below_next v)

omit [DecidableRel r] in
theorem forget (h : Base avail succ r s) : Inv avail succ r ∅ s.forget where
  visited := by
    intro v
    simp only [Scratch.forget]
    by_cases hv : v ∈ s.stack
    · simp [hv, h.disjoint v hv]
    · simpa [hv] using h.visited v
  disjoint := by simp [Scratch.forget]
  available := by simp [Scratch.forget]
  below_next := by
    intro v
    simp only [Scratch.forget]
    split
    · exact h.nextIndex_pos v
    · exact h.below_next v
  emitted := h.emitted
  decreasing := List.Pairwise.nil
  gray_stack := by simp
  toGray := by simp [Scratch.forget]
  fromGray := by simp
  black := by simp [Scratch.forget]

end Base

omit [DecidableEq α] [DecidableRel r] in
theorem Inv.empty : Inv avail succ r ∅ (Scratch.empty : Scratch α) where
  visited := by simp [Scratch.empty]
  disjoint := by simp [Scratch.empty]
  available := by simp [Scratch.empty]
  below_next := by simp [Scratch.empty]
  emitted := Emitted.nil
  decreasing := List.Pairwise.nil
  gray_stack := by simp
  toGray := by simp [Scratch.empty]
  fromGray := by simp
  black := by simp [Scratch.empty]

omit [DecidableEq α] [DecidableRel r] in
theorem Inv.stack_nodup {gray : Set α} {s : Scratch α} (h : Inv avail succ r gray s) :
    s.stack.Nodup := by
  refine h.decreasing.imp ?_
  rintro u v huv rfl
  exact Nat.lt_irrefl _ huv

omit [DecidableRel r] in
theorem Inv.push {gray : Set α} {s : Scratch α} {u : α} (h : Inv avail succ r gray s)
    (hu : s.index u = 0) (ha : avail u) (hg : ∀ g ∈ gray, Reach succ g u) :
    Inv avail succ r (insert u gray) (s.push u) := by
  have hstack : u ∉ s.stack := fun hm => (h.visited u).2 (Or.inl hm) hu
  have horder : u ∉ s.order := fun hm => (h.visited u).2 (Or.inr hm) hu
  have hold : ∀ v, v ≠ u → (s.push u).index v = s.index v := fun v hv =>
    Function.update_of_ne hv _ _
  have hself : (s.push u).index u = s.nextIndex := Function.update_self _ _ _
  have hne : ∀ v ∈ s.stack, v ≠ u := fun v hv he => hstack (he ▸ hv)
  refine ⟨⟨?_, ?_, ?_, ?_, h.emitted⟩, ?_, ?_, ?_, ?_, ?_⟩
  · intro v
    by_cases hv : v = u
    · subst hv
      rw [hself]
      have := h.nextIndex_pos v
      simp only [Scratch.push, List.mem_cons, true_or, iff_true]
      omega
    · rw [hold v hv, h.visited v]
      simp [Scratch.push, hv]
  · intro v hv
    rcases List.mem_cons.1 hv with rfl | hv
    · exact horder
    · exact h.disjoint v hv
  · intro v hv
    rcases List.mem_cons.1 hv with rfl | hv
    · exact ha
    · exact h.available v hv
  · intro v
    by_cases hv : v = u
    · subst hv
      rw [hself]
      exact Nat.lt_succ_self _
    · rw [hold v hv]
      exact Nat.lt_succ_of_lt (h.below_next v)
  · refine List.pairwise_cons.2 ⟨?_, ?_⟩
    · intro v hv
      rw [hold v (hne v hv), hself]
      exact h.below_next v
    · refine h.decreasing.imp_of_mem ?_
      intro v w hv hw hvw
      rwa [hold v (hne v hv), hold w (hne w hw)]
  · rintro g (rfl | hg')
    · exact List.mem_cons_self
    · exact List.mem_cons_of_mem _ (h.gray_stack g hg')
  · intro v hv
    rcases List.mem_cons.1 hv with rfl | hv
    · exact ⟨v, Or.inl rfl, Nat.le_refl _, Reach.refl v⟩
    · obtain ⟨g, hg', hle, hr⟩ := h.toGray v hv
      refine ⟨g, Or.inr hg', ?_, hr⟩
      rwa [hold v (hne v hv), hold g (hne g (h.gray_stack g hg'))]
  · rintro g (rfl | hg') v hv hle
    · rcases List.mem_cons.1 hv with rfl | hv
      · exact Reach.refl v
      · rw [hold v (hne v hv), hself] at hle
        exact absurd (h.below_next v) (Nat.not_lt.2 hle)
    · rcases List.mem_cons.1 hv with rfl | hv
      · exact hg g hg'
      · rw [hold v (hne v hv), hold g (hne g (h.gray_stack g hg'))] at hle
        exact h.fromGray g hg' v hv hle
  · intro v hv hvg w hw
    rcases List.mem_cons.1 hv with rfl | hv
    · exact absurd (Or.inl rfl) hvg
    · have := h.black v hv (fun hg' => hvg (Or.inr hg')) w hw
      by_cases hwu : w = u
      · exact absurd (hwu ▸ hu) this
      · rwa [hold w hwu]

structure Grown (s t : Scratch α) : Prop where
  index_eq : ∀ v, s.index v ≠ 0 → t.index v = s.index v
  lowlink_eq : ∀ v, s.index v ≠ 0 → t.lowlink v = s.lowlink v
  order_prefix : s.order <+: t.order

variable (succ) in
structure Rooted (u : α) (s t : Scratch α) (new : List α) : Prop where
  mem : u ∈ new
  attained : ∃ z ∈ s.stack, t.index z = t.lowlink u ∧ Reach succ u z
  bound : ∀ x ∈ new, ∀ w ∈ succ x, w ∈ s.stack → t.lowlink u ≤ t.index w

variable (avail succ r) in
structure Connected (gray : Set α) (u : α) (s t : Scratch α) : Prop where
  inv : Inv avail succ r gray t
  grown : Grown s t
  reached : t.index u ≠ 0
  stack_eq : ∃ new, t.stack = new ++ s.stack ∧
    (new = [] ∧ s.nextIndex ≤ t.lowlink u ∨ Rooted succ u s t new)

variable (avail succ r) in
structure Aborted (u : α) (s t : Scratch α) : Prop where
  base : Base avail succ r t
  order_prefix : s.order <+: t.order
  blocked : ∃ w, Reach succ u w ∧ avail w = false

variable (avail succ r) in
def ConnectSpec (gray : Set α) (u : α) (s : Scratch α) (result : Bool × Scratch α) : Prop :=
  (result.1 = true ∧ Connected avail succ r gray u s result.2) ∨
    (result.1 = false ∧ Aborted avail succ r u s result.2)

-- `s` is the state before `u` was pushed, `t` the one after the dependencies in `scanned`.
variable (avail succ r) in
structure Scanning (gray : Set α) (u : α) (s t : Scratch α) (scanned : List α) : Prop where
  inv : Inv avail succ r (insert u gray) t
  grown : Grown s t
  index_eq : t.index u = s.nextIndex
  lowlink_le : t.lowlink u ≤ t.index u
  attained : t.lowlink u = t.index u ∨
    ∃ z ∈ s.stack, t.index z = t.lowlink u ∧ Reach succ u z
  stack_eq : ∃ new, t.stack = new ++ u :: s.stack ∧
    ∀ x ∈ new, ∀ w ∈ succ x, w ∈ s.stack → t.lowlink u ≤ t.index w
  reached : ∀ w ∈ scanned, t.index w ≠ 0
  bound : ∀ w ∈ scanned, w ∈ s.stack → t.lowlink u ≤ t.index w

def unvisited (nodes : Finset α) (s : Scratch α) : Nat := (nodes.filter (s.index · = 0)).card

omit [DecidableEq α] in
theorem Grown.unvisited_le {s t : Scratch α} (h : Grown s t) (nodes : Finset α) :
    unvisited nodes t ≤ unvisited nodes s := by
  refine Finset.card_le_card fun v hv => ?_
  rw [Finset.mem_filter] at hv ⊢
  refine ⟨hv.1, ?_⟩
  by_contra hs
  exact hs (h.index_eq v hs ▸ hv.2)

theorem unvisited_push {nodes : Finset α} {s : Scratch α} {u : α} (hn : u ∈ nodes)
    (hu : s.index u = 0) (hpos : 0 < s.nextIndex) :
    unvisited nodes (s.push u) < unvisited nodes s := by
  refine Finset.card_lt_card ⟨fun v hv => ?_, fun hsub => ?_⟩
  · rw [Finset.mem_filter] at hv ⊢
    refine ⟨hv.1, ?_⟩
    by_cases hvu : v = u
    · exact hvu ▸ hu
    · simpa [Scratch.push, hvu] using hv.2
  · have := hsub (Finset.mem_filter.2 ⟨hn, hu⟩)
    rw [Finset.mem_filter] at this
    have h0 := this.2
    simp only [Scratch.push, Function.update_self] at h0
    omega

omit [DecidableEq α] in
theorem Grown.trans {s t t' : Scratch α} (h : Grown s t) (h' : Grown t t') : Grown s t' where
  index_eq := by
    intro v hv
    have := h.index_eq v hv
    rw [h'.index_eq v (this ▸ hv), this]
  lowlink_eq := by
    intro v hv
    have := h.index_eq v hv
    rw [h'.lowlink_eq v (this ▸ hv), h.lowlink_eq v hv]
  order_prefix := h.order_prefix.trans h'.order_prefix

omit [DecidableRel r] in
theorem Inv.lower {gray : Set α} {s : Scratch α} (h : Inv avail succ r gray s) (u : α) (k : Nat) :
    Inv avail succ r gray (s.lower u k) :=
  ⟨⟨h.visited, h.disjoint, h.available, h.below_next, h.emitted⟩, h.decreasing, h.gray_stack,
    h.toGray, h.fromGray, h.black⟩

namespace Scanning

variable {gray : Set α} {u : α} {s t : Scratch α} {scanned : List α}

omit [DecidableRel r] in
theorem start (h : Inv avail succ r gray s) (hu : s.index u = 0) (ha : avail u)
    (hg : ∀ g ∈ gray, Reach succ g u) : Scanning avail succ r gray u s (s.push u) [] where
  inv := h.push hu ha hg
  grown := by
    refine ⟨fun v hv => Function.update_of_ne ?_ _ _, fun v hv => Function.update_of_ne ?_ _ _,
      List.prefix_rfl⟩
    · rintro rfl; exact hv hu
    · rintro rfl; exact hv hu
  index_eq := Function.update_self _ _ _
  lowlink_le := by simp [Scratch.push]
  attained := Or.inl (by simp [Scratch.push])
  stack_eq := ⟨[], rfl, by simp⟩
  reached := by simp
  bound := by simp

omit [DecidableRel r] in
theorem index_lt (h : Scanning avail succ r gray u s t scanned) {z : α} (hz : z ∈ t.stack)
    (hlt : t.index z < t.index u) : z ∈ s.stack := by
  obtain ⟨new, hstack, -⟩ := h.stack_eq
  have hd := h.inv.decreasing
  rw [hstack] at hz hd
  rcases List.mem_append.1 hz with hz | hz
  · have := (List.pairwise_append.1 hd).2.2 z hz u List.mem_cons_self
    omega
  · rcases List.mem_cons.1 hz with rfl | hz
    · exact absurd hlt (Nat.lt_irrefl _)
    · exact hz

omit [DecidableEq α] [DecidableRel r] in
theorem index_ge (h : Scanning avail succ r gray u s t scanned) {z : α} (hz : z ∈ s.stack) :
    t.index z < t.index u := by
  obtain ⟨new, hstack, -⟩ := h.stack_eq
  have hd := h.inv.decreasing
  rw [hstack] at hd
  exact List.rel_of_pairwise_cons (List.pairwise_append.1 hd).2.1 hz

omit [DecidableEq α] [DecidableRel r] in
theorem stack_sub (h : Scanning avail succ r gray u s t scanned) {z : α} (hz : z ∈ s.stack) :
    z ∈ t.stack := by
  obtain ⟨new, hstack, -⟩ := h.stack_eq
  rw [hstack]
  exact List.mem_append_right _ (List.mem_cons_of_mem _ hz)

omit [DecidableRel r] in
theorem grown_lower (h : Scanning avail succ r gray u s t scanned) (hu : s.index u = 0) (k : Nat) :
    Grown s (t.lower u k) := by
  refine ⟨h.grown.index_eq, fun v hv => ?_, h.grown.order_prefix⟩
  rw [← h.grown.lowlink_eq v hv]
  refine Function.update_of_ne ?_ _ _
  rintro rfl
  exact hv hu

-- `d` sits on the stack: the entry point of `u` is at least as old.
omit [DecidableRel r] in
theorem onStack (h : Scanning avail succ r gray u s t scanned) (hu : s.index u = 0) {d : α}
    (hd : d ∈ succ u) (hm : d ∈ t.stack) :
    Scanning avail succ r gray u s (t.lower u (t.index d)) (d :: scanned) := by
  have hlow : (t.lower u (t.index d)).lowlink u = min (t.lowlink u) (t.index d) :=
    Function.update_self _ _ _
  have hle := h.lowlink_le
  obtain ⟨new, hstack, hnew⟩ := h.stack_eq
  refine ⟨h.inv.lower _ _, h.grown_lower hu _, h.index_eq, ?_, ?_, ⟨new, hstack, ?_⟩, ?_, ?_⟩
  · rw [hlow]
    exact Nat.le_trans (Nat.min_le_left _ _) hle
  · rw [hlow]
    by_cases hlt : t.index d < t.lowlink u
    · exact Or.inr ⟨d, h.index_lt hm (Nat.lt_of_lt_of_le hlt hle),
        (Nat.min_eq_right hlt.le).symm, Reach.edge hd⟩
    · rw [Nat.min_eq_left (Nat.not_lt.1 hlt)]
      exact h.attained
  · intro x hx w hw hws
    rw [hlow]
    exact Nat.le_trans (Nat.min_le_left _ _) (hnew x hx w hw hws)
  · intro w hw
    rcases List.mem_cons.1 hw with rfl | hw
    · exact (h.inv.visited w).2 (Or.inl hm)
    · exact h.reached w hw
  · intro w hw hws
    rw [hlow]
    rcases List.mem_cons.1 hw with rfl | hw
    · exact Nat.min_le_right _ _
    · exact Nat.le_trans (Nat.min_le_left _ _) (h.bound w hw hws)

omit [DecidableEq α] [DecidableRel r] in
theorem emittedBefore (h : Scanning avail succ r gray u s t scanned) {d : α}
    (hv : t.index d ≠ 0) (hm : d ∉ t.stack) :
    Scanning avail succ r gray u s t (d :: scanned) := by
  refine ⟨h.inv, h.grown, h.index_eq, h.lowlink_le, h.attained, h.stack_eq, ?_, ?_⟩
  · intro w hw
    rcases List.mem_cons.1 hw with rfl | hw
    · exact hv
    · exact h.reached w hw
  · intro w hw hws
    rcases List.mem_cons.1 hw with rfl | hw
    · exact absurd (h.stack_sub hws) hm
    · exact h.bound w hw hws

omit [DecidableRel r] in
theorem connected (h : Scanning avail succ r gray u s t scanned) (hu : s.index u = 0)
    {d : α} {t' : Scratch α} (hd : d ∈ succ u) (hd0 : t.index d = 0)
    (hc : Connected avail succ r (insert u gray) d t t') :
    Scanning avail succ r gray u s (t'.lower u (t'.lowlink d)) (d :: scanned) := by
  obtain ⟨new, hstack, hnew⟩ := h.stack_eq
  obtain ⟨new', hstack', hcase⟩ := hc.stack_eq
  have hu0 : t.index u ≠ 0 := (h.inv.visited u).2 (Or.inl (by simp [hstack]))
  have hindex : ∀ z ∈ t.stack, t'.index z = t.index z := fun z hz =>
    hc.grown.index_eq z ((h.inv.visited z).2 (Or.inl hz))
  have hiu : t'.index u = t.index u := hc.grown.index_eq u hu0
  have hlu : t'.lowlink u = t.lowlink u := hc.grown.lowlink_eq u hu0
  have hlow : (t'.lower u (t'.lowlink d)).lowlink u = min (t.lowlink u) (t'.lowlink d) := by
    rw [← hlu]
    exact Function.update_self _ _ _
  have hle := h.lowlink_le
  have hnext := h.inv.below_next u
  have hgrown : Grown s t' := h.grown.trans hc.grown
  refine ⟨hc.inv.lower _ _, ⟨hgrown.index_eq, fun v hv => ?_, hgrown.order_prefix⟩, ?_, ?_, ?_,
    ⟨new' ++ new, ?_, ?_⟩, ?_, ?_⟩
  · rw [← hgrown.lowlink_eq v hv]
    refine Function.update_of_ne ?_ _ _
    rintro rfl
    exact hv hu
  · exact hiu.trans h.index_eq
  · rw [hlow]
    exact Nat.le_trans (Nat.min_le_left _ _) (hiu.symm ▸ hle)
  · rw [hlow]
    by_cases hlt : t'.lowlink d < t.lowlink u
    · rcases hcase with ⟨-, hge⟩ | hroot
      · omega
      · obtain ⟨z, hz, hzi, hzr⟩ := hroot.attained
        refine Or.inr ⟨z, h.index_lt hz ?_, ?_, (Reach.edge hd).trans hzr⟩
        · rw [← hindex z hz, hzi]
          omega
        · rw [Nat.min_eq_right hlt.le]
          exact hzi
    · rw [Nat.min_eq_left (Nat.not_lt.1 hlt)]
      rcases h.attained with heq | ⟨z, hz, hzi, hzr⟩
      · exact Or.inl (heq.trans hiu.symm)
      · exact Or.inr ⟨z, hz, (hindex z (h.stack_sub hz)).trans hzi, hzr⟩
  · rw [List.append_assoc, ← hstack]
    exact hstack'
  · intro x hx w hw hws
    rw [hlow]
    rcases List.mem_append.1 hx with hx | hx
    · rcases hcase with ⟨rfl, -⟩ | hroot
      · cases hx
      · exact Nat.le_trans (Nat.min_le_right _ _) (hroot.bound x hx w hw (h.stack_sub hws))
    · refine Nat.le_trans (Nat.min_le_left _ _) ?_
      exact Nat.le_trans (hnew x hx w hw hws) (hindex w (h.stack_sub hws)).ge
  · intro w hw
    rcases List.mem_cons.1 hw with rfl | hw
    · exact hc.reached
    · have hw0 := h.reached w hw
      exact (hc.grown.index_eq w hw0).symm ▸ hw0
  · intro w hw hws
    rw [hlow]
    rcases List.mem_cons.1 hw with rfl | hw
    · exact absurd hd0 ((h.inv.visited w).2 (Or.inl (h.stack_sub hws)))
    · refine Nat.le_trans (Nat.min_le_left _ _) ?_
      exact Nat.le_trans (h.bound w hw hws) (hindex w (h.stack_sub hws)).ge

omit [DecidableRel r] in
theorem keep (h : Scanning avail succ r gray u s t (succ u))
    (hne : t.lowlink u ≠ t.index u) : Connected avail succ r gray u s t := by
  obtain ⟨new, hstack, hnew⟩ := h.stack_eq
  obtain ⟨z, hz, hzi, hzr⟩ := h.attained.resolve_left hne
  have hu0 : t.index u ≠ 0 := (h.inv.visited u).2 (Or.inl (by simp [hstack]))
  have hlow := h.lowlink_le
  have hold : ∀ v ∈ t.stack, t.index v < t.index u →
      ∃ g ∈ gray, t.index g ≤ t.index v ∧ Reach succ v g := by
    intro v hv hlt
    obtain ⟨g, hg, hgi, hgr⟩ := h.inv.toGray v hv
    rcases hg with rfl | hg
    · exact absurd hgi (Nat.not_le.2 hlt)
    · exact ⟨g, hg, hgi, hgr⟩
  refine ⟨⟨h.inv.toBase, h.inv.decreasing, ?_, ?_, ?_, ?_⟩, h.grown, hu0, new ++ [u], ?_,
    Or.inr ⟨by simp, ⟨z, hz, hzi, hzr⟩, ?_⟩⟩
  · intro g hg
    exact h.inv.gray_stack g (Or.inr hg)
  · intro v hv
    obtain ⟨g, hg, hgi, hgr⟩ := h.inv.toGray v hv
    rcases hg with rfl | hg
    · obtain ⟨g', hg', hgi', hgr'⟩ := hold z (h.stack_sub hz) (by omega)
      exact ⟨g', hg', by omega, hgr.trans (hzr.trans hgr')⟩
    · exact ⟨g, hg, hgi, hgr⟩
  · intro g hg
    exact h.inv.fromGray g (Or.inr hg)
  · intro v hv hvg w hw
    by_cases hvu : v = u
    · subst hvu
      exact h.reached w hw
    · refine h.inv.black v hv ?_ w hw
      rintro (hv' | hv')
      · exact hvu hv'
      · exact hvg hv'
  · rw [hstack]
    simp
  · intro x hx w hw hws
    rcases List.mem_append.1 hx with hx | hx
    · exact hnew x hx w hw hws
    · rw [List.mem_singleton.1 hx] at hw
      exact h.bound w hw hws

theorem component_eq {new : List α} (hstack : t.stack = new ++ u :: s.stack) (hu : u ∉ new) :
    t.component u = new ++ [u] ∧ t.below u = s.stack := by
  have hne : ∀ x ∈ new, decide (x ≠ u) = true := fun x hx => by
    simp only [decide_eq_true_eq]
    rintro rfl
    exact hu hx
  simp only [Scratch.component, Scratch.below, hstack]
  rw [List.takeWhile_append_of_pos hne, List.dropWhile_append_of_pos hne]
  simp

omit [DecidableRel r] in
theorem stack_split (h : Scanning avail succ r gray u s t scanned) :
    ∃ new, t.stack = new ++ u :: s.stack ∧ u ∉ new ∧ t.component u = new ++ [u] ∧
      t.below u = s.stack ∧ ∀ x ∈ new, ∀ w ∈ succ x, w ∈ s.stack → t.lowlink u ≤ t.index w := by
  obtain ⟨new, hstack, hnew⟩ := h.stack_eq
  have hnd := h.inv.stack_nodup
  rw [hstack] at hnd
  have hu : u ∉ new := fun hm => (List.nodup_append.1 hnd).2.2 u hm u List.mem_cons_self rfl
  obtain ⟨hcomp, hbelow⟩ := component_eq hstack hu
  exact ⟨new, hstack, hu, hcomp, hbelow, hnew⟩

omit [DecidableRel r] in
theorem below_eq (h : Scanning avail succ r gray u s t scanned) : t.below u = s.stack := by
  obtain ⟨_, -, -, -, hbelow, -⟩ := h.stack_split
  exact hbelow

omit [DecidableRel r] in
theorem mem_stack (h : Scanning avail succ r gray u s t scanned) {v : α} :
    v ∈ t.stack ↔ v ∈ t.component u ∨ v ∈ s.stack := by
  obtain ⟨new, hstack, -, hcomp, -, -⟩ := h.stack_split
  rw [hstack, hcomp]
  simp [or_assoc]

omit [DecidableRel r] in
theorem self_mem_component (h : Scanning avail succ r gray u s t scanned) : u ∈ t.component u := by
  obtain ⟨new, -, -, hcomp, -, -⟩ := h.stack_split
  rw [hcomp]
  exact List.mem_append_right _ (List.mem_singleton_self u)

omit [DecidableRel r] in
theorem component_nodup (h : Scanning avail succ r gray u s t scanned) :
    (t.component u).Nodup := by
  obtain ⟨new, hstack, hu, hcomp, -, -⟩ := h.stack_split
  have hnd := h.inv.stack_nodup
  rw [hstack] at hnd
  rw [hcomp]
  refine List.nodup_append.2 ⟨(List.nodup_append.1 hnd).1, List.nodup_singleton u, ?_⟩
  intro x hx y hy hxy
  rw [List.mem_singleton.1 hy] at hxy
  exact hu (hxy ▸ hx)

omit [DecidableRel r] in
theorem not_mem_component (h : Scanning avail succ r gray u s t scanned) {v : α}
    (hv : v ∈ s.stack) : v ∉ t.component u := by
  intro hvc
  obtain ⟨new, hstack, -, hcomp, -, -⟩ := h.stack_split
  have hnd := h.inv.stack_nodup
  rw [hstack] at hnd
  rw [hcomp] at hvc
  rcases List.mem_append.1 hvc with hvn | hvu
  · exact (List.nodup_append.1 hnd).2.2 v hvn v (List.mem_cons_of_mem _ hv) rfl
  · rw [List.mem_singleton.1 hvu] at hv
    exact (List.nodup_cons.1 (List.nodup_append.1 hnd).2.1).1 hv

omit [DecidableRel r] in
theorem index_le (h : Scanning avail succ r gray u s t scanned) {v : α}
    (hv : v ∈ t.component u) : t.index u ≤ t.index v := by
  by_contra hlt
  exact h.not_mem_component (h.index_lt (h.mem_stack.2 (Or.inl hv)) (Nat.not_le.1 hlt)) hv

-- Nothing in the component of a root leads below it.
omit [DecidableRel r] in
theorem component_closed (h : Scanning avail succ r gray u s t (succ u))
    (hgs : ∀ g ∈ gray, g ∈ s.stack) (heq : t.lowlink u = t.index u) {x : α}
    (hx : x ∈ t.component u) {w : α} (hw : w ∈ succ x) : w ∈ t.order ∨ w ∈ t.component u := by
  have hseen : t.index w ≠ 0 ∧ (w ∈ s.stack → t.lowlink u ≤ t.index w) := by
    obtain ⟨new, -, hu, hcomp, -, hnew⟩ := h.stack_split
    have hxs := hx
    rw [hcomp] at hxs
    rcases List.mem_append.1 hxs with hxn | hxu
    · refine ⟨h.inv.black x (h.mem_stack.2 (Or.inl hx)) ?_ w hw, hnew x hxn w hw⟩
      rintro (rfl | hxg)
      · exact hu hxn
      · exact h.not_mem_component (hgs x hxg) hx
    · rw [List.mem_singleton.1 hxu] at hw
      exact ⟨h.reached w hw, h.bound w hw⟩
  rcases (h.inv.visited w).1 hseen.1 with hws | hwo
  · rcases h.mem_stack.1 hws with hwc | hwb
    · exact Or.inr hwc
    · have hle := hseen.2 hwb
      have hlt := h.index_ge hwb
      omega
  · exact Or.inl hwo

omit [DecidableRel r] in
theorem component_connected (h : Scanning avail succ r gray u s t scanned)
    (hgs : ∀ g ∈ gray, g ∈ s.stack) {x y : α} (hx : x ∈ t.component u)
    (hy : y ∈ t.component u) : Reach succ x y := by
  have hxs := h.mem_stack.2 (Or.inl hx)
  have hys := h.mem_stack.2 (Or.inl hy)
  have hus := h.mem_stack.2 (Or.inl h.self_mem_component)
  have huy : Reach succ u y := h.inv.fromGray u (Or.inl rfl) y hys (h.index_le hy)
  have hxu : Reach succ x u := by
    obtain ⟨g, hg, hgi, hgr⟩ := h.inv.toGray x hxs
    rcases hg with rfl | hg
    · exact hgr
    · have hlt := h.index_ge (hgs g hg)
      exact hgr.trans (h.inv.fromGray g (Or.inr hg) u hus hlt.le)
  exact hxu.trans huy

theorem pop_base [Std.Total r] [IsTrans α r] (h : Scanning avail succ r gray u s t (succ u))
    (hgs : ∀ g ∈ gray, g ∈ s.stack) (heq : t.lowlink u = t.index u) :
    Base avail succ r (t.pop r u) := by
  refine ⟨?_, ?_, ?_, h.inv.below_next, ?_⟩
  · intro v
    rw [show (t.pop r u).index v = t.index v from rfl, h.inv.visited v, h.mem_stack]
    simp only [Scratch.pop, h.below_eq, List.mem_append, List.mem_insertionSort]
    tauto
  · intro v hv
    simp only [Scratch.pop, h.below_eq] at hv
    simp only [Scratch.pop, List.mem_append, List.mem_insertionSort, not_or]
    exact ⟨h.inv.disjoint v (h.stack_sub hv), h.not_mem_component hv⟩
  · intro v hv
    simp only [Scratch.pop, h.below_eq] at hv
    exact h.inv.available v (h.stack_sub hv)
  · refine h.inv.emitted.block ?_ ?_ (List.pairwise_insertionSort r _) ?_ ?_ ?_
    · intro x hx w hw
      rw [List.mem_insertionSort] at hx ⊢
      exact h.component_closed hgs heq hx hw
    · intro x hx y hy
      rw [List.mem_insertionSort] at hx hy
      exact h.component_connected hgs hx hy
    · exact (List.perm_insertionSort r _).nodup_iff.2 h.component_nodup
    · intro x hx
      rw [List.mem_insertionSort] at hx
      exact h.inv.disjoint x (h.mem_stack.2 (Or.inl hx))
    · intro x hx
      rw [List.mem_insertionSort] at hx
      exact h.inv.available x (h.mem_stack.2 (Or.inl hx))

theorem pop [Std.Total r] [IsTrans α r] (h : Scanning avail succ r gray u s t (succ u))
    (hgs : ∀ g ∈ gray, g ∈ s.stack) (heq : t.lowlink u = t.index u) :
    Connected avail succ r gray u s (t.pop r u) := by
  have hus : u ∈ t.stack := h.mem_stack.2 (Or.inl h.self_mem_component)
  refine ⟨⟨h.pop_base hgs heq, ?_, ?_, ?_, ?_, ?_⟩, ?_, ?_, [], ?_, ?_⟩
  · obtain ⟨new, hstack, -, -, -, -⟩ := h.stack_split
    have hd := h.inv.decreasing
    rw [hstack] at hd
    simp only [Scratch.pop, h.below_eq]
    exact (List.pairwise_cons.1 (List.pairwise_append.1 hd).2.1).2
  · intro g hg
    simp only [Scratch.pop, h.below_eq]
    exact hgs g hg
  · intro v hv
    simp only [Scratch.pop, h.below_eq] at hv
    obtain ⟨g, hg, hgi, hgr⟩ := h.inv.toGray v (h.stack_sub hv)
    rcases hg with rfl | hg
    · exact absurd (h.index_ge hv) (Nat.not_lt.2 hgi)
    · exact ⟨g, hg, hgi, hgr⟩
  · intro g hg v hv hle
    simp only [Scratch.pop, h.below_eq] at hv
    exact h.inv.fromGray g (Or.inr hg) v (h.stack_sub hv) hle
  · intro v hv hvg w hw
    simp only [Scratch.pop, h.below_eq] at hv
    refine h.inv.black v (h.stack_sub hv) ?_ w hw
    rintro (rfl | hv')
    · exact h.not_mem_component hv h.self_mem_component
    · exact hvg hv'
  · exact ⟨h.grown.index_eq, h.grown.lowlink_eq, h.grown.order_prefix.trans
      (List.prefix_append _ _)⟩
  · exact (h.inv.visited u).2 (Or.inl hus)
  · simpa [Scratch.pop] using h.below_eq
  · refine Or.inl ⟨rfl, ?_⟩
    rw [show (t.pop r u).lowlink u = t.lowlink u from rfl, heq, h.index_eq]

end Scanning

omit [DecidableRel r] in
theorem scan_spec {nodes : Finset α} {fuel : Nat} {gray : Set α} {u : α} {s : Scratch α}
    {rec : α → Scratch α → Bool × Scratch α} (hu : s.index u = 0)
    (hrec : ∀ d t, Inv avail succ r (insert u gray) t → t.index d = 0 → avail d →
      (∀ g ∈ insert u gray, Reach succ g d) → unvisited nodes t ≤ fuel →
      ConnectSpec avail succ r (insert u gray) d t (rec d t))
    (hg : ∀ g ∈ gray, Reach succ g u) (ds scanned : List α) (hds : ∀ d ∈ ds, d ∈ succ u)
    (t : Scratch α) (h : Scanning avail succ r gray u s t scanned)
    (hfuel : unvisited nodes t ≤ fuel) :
    let result := scan avail rec u ds t
    (result.1 = true ∧ Scanning avail succ r gray u s result.2 (ds.reverse ++ scanned)) ∨
      (result.1 = false ∧ Aborted avail succ r u s result.2) := by
  induction ds generalizing t scanned with
  | nil => exact Or.inl ⟨rfl, h⟩
  | cons d ds ih =>
    have hd := hds d List.mem_cons_self
    have hds' : ∀ d ∈ ds, d ∈ succ u := fun x hx => hds x (List.mem_cons_of_mem _ hx)
    rw [List.reverse_cons, List.append_assoc, List.singleton_append]
    simp only [scan]
    by_cases ha : avail d
    · rw [if_pos ha]
      by_cases h0 : t.index d = 0
      · rw [if_pos h0]
        have hgd : ∀ g ∈ insert u gray, Reach succ g d := by
          rintro g (rfl | hg')
          · exact Reach.edge hd
          · exact (hg g hg').trans (Reach.edge hd)
        rcases hrec d t h.inv h0 ha hgd hfuel with ⟨hres, hc⟩ | ⟨hres, hc⟩
        · simp only [hres, if_true]
          refine ih _ hds' _ (h.connected hu hd h0 hc) ?_
          exact Nat.le_trans (hc.grown.unvisited_le nodes) hfuel
        · simp only [hres, Bool.false_eq_true, if_false]
          obtain ⟨w, hw, hwa⟩ := hc.blocked
          exact Or.inr ⟨trivial, hc.base, h.grown.order_prefix.trans hc.order_prefix, w,
            (Reach.edge hd).trans hw, hwa⟩
      · rw [if_neg h0]
        by_cases hm : d ∈ t.stack
        · rw [if_pos hm]
          exact ih _ hds' _ (h.onStack hu hd hm) hfuel
        · rw [if_neg hm]
          exact ih _ hds' _ (h.emittedBefore h0 hm) hfuel
    · rw [if_neg ha]
      exact Or.inr ⟨rfl, h.inv.toBase, h.grown.order_prefix, d, Reach.edge hd, by simpa using ha⟩

theorem connect_spec [Std.Total r] [IsTrans α r] {nodes : Finset α}
    (hnodes : ∀ v, avail v → v ∈ nodes) (fuel : Nat) (gray : Set α) (u : α) (s : Scratch α)
    (h : Inv avail succ r gray s) (hu : s.index u = 0) (ha : avail u)
    (hg : ∀ g ∈ gray, Reach succ g u) (hfuel : unvisited nodes s ≤ fuel) :
    ConnectSpec avail succ r gray u s (connect avail succ r fuel u s) := by
  have hlt := unvisited_push (hnodes u ha) hu (h.nextIndex_pos u)
  induction fuel generalizing gray u s with
  | zero => omega
  | succ fuel ih =>
    have hrec : ∀ d t, Inv avail succ r (insert u gray) t → t.index d = 0 → avail d →
        (∀ g ∈ insert u gray, Reach succ g d) → unvisited nodes t ≤ fuel →
        ConnectSpec avail succ r (insert u gray) d t (connect avail succ r fuel d t) :=
      fun d t hi h0 had hgd hf => ih _ d t hi h0 had hgd hf
        (unvisited_push (hnodes d had) h0 (hi.nextIndex_pos d))
    have hscan := scan_spec hu hrec hg (succ u) [] (fun _ hd => hd) _
      (Scanning.start h hu ha hg) (by omega)
    simp only [connect]
    rcases hscan with ⟨hres, hs⟩ | ⟨hres, hs⟩
    · simp only [hres, if_true]
      have hs' : Scanning avail succ r gray u s
          (scan avail (connect avail succ r fuel) u (succ u) (s.push u)).2 (succ u) :=
        ⟨hs.inv, hs.grown, hs.index_eq, hs.lowlink_le, hs.attained, hs.stack_eq,
          fun w hw => hs.reached w (by simpa using hw), fun w hw => hs.bound w (by simpa using hw)⟩
      refine Or.inl ⟨rfl, ?_⟩
      by_cases heq : (scan avail (connect avail succ r fuel) u (succ u) (s.push u)).2.lowlink u =
          (scan avail (connect avail succ r fuel) u (succ u) (s.push u)).2.index u
      · rw [if_pos heq]
        exact hs'.pop h.gray_stack heq
      · rw [if_neg heq]
        exact hs'.keep heq
    · simp only [hres, Bool.false_eq_true, if_false]
      exact Or.inr ⟨rfl, hs⟩

omit [DecidableEq α] [DecidableRel r] in
theorem Inv.stack_nil {s : Scratch α} (h : Inv avail succ r ∅ s) : s.stack = [] := by
  refine List.eq_nil_iff_forall_not_mem.2 fun v hv => ?_
  obtain ⟨g, hg, -⟩ := h.toGray v hv
  exact hg

omit [DecidableEq α] in
theorem unvisited_le_card (nodes : Finset α) (s : Scratch α) :
    unvisited nodes s ≤ nodes.card := Finset.card_filter_le _ _

theorem visitRoots_spec [Std.Total r] [IsTrans α r] {nodes : Finset α}
    (hnodes : ∀ v, avail v → v ∈ nodes) {fuel : Nat} (hfuel : nodes.card ≤ fuel)
    (roots : List α) (hroots : ∀ root ∈ roots, avail root) (s : Scratch α)
    (h : Inv avail succ r ∅ s) :
    Inv avail succ r ∅ (visitRoots avail succ r fuel roots s) ∧
      s.order <+: (visitRoots avail succ r fuel roots s).order ∧
      ∀ root ∈ roots, (∀ w, Reach succ root w → avail w) →
        root ∈ (visitRoots avail succ r fuel roots s).order := by
  induction roots generalizing s with
  | nil => exact ⟨h, List.prefix_rfl, by simp⟩
  | cons root roots ih =>
    have hroots' : ∀ x ∈ roots, avail x := fun x hx => hroots x (List.mem_cons_of_mem _ hx)
    simp only [visitRoots]
    by_cases h0 : s.index root ≠ 0
    · rw [if_pos h0]
      obtain ⟨hinv, hpre, hall⟩ := ih hroots' s h
      refine ⟨hinv, hpre, fun x hx hw => ?_⟩
      rcases List.mem_cons.1 hx with rfl | hx
      · rcases (h.visited x).1 h0 with hm | hm
        · rw [h.stack_nil] at hm
          cases hm
        · exact hpre.subset hm
      · exact hall x hx hw
    · rw [if_neg h0]
      have hle := Nat.le_trans (unvisited_le_card nodes s) hfuel
      rcases connect_spec hnodes fuel ∅ root s h (not_not.1 h0) (hroots root List.mem_cons_self)
        (fun g hg => absurd hg (Set.notMem_empty g)) hle with ⟨hres, hc⟩ | ⟨hres, hc⟩
      · simp only [hres, if_true]
        obtain ⟨hinv, hpre, hall⟩ := ih hroots' _ hc.inv
        refine ⟨hinv, hc.grown.order_prefix.trans hpre, fun x hx hw => ?_⟩
        rcases List.mem_cons.1 hx with rfl | hx
        · rcases (hc.inv.visited x).1 hc.reached with hm | hm
          · rw [hc.inv.stack_nil] at hm
            cases hm
          · exact hpre.subset hm
        · exact hall x hx hw
      · simp only [hres, Bool.false_eq_true, if_false]
        obtain ⟨hinv, hpre, hall⟩ := ih hroots' _ hc.base.forget
        refine ⟨hinv, hc.order_prefix.trans hpre, fun x hx hw => ?_⟩
        rcases List.mem_cons.1 hx with rfl | hx
        · obtain ⟨w, hwr, hwa⟩ := hc.blocked
          rw [hw w hwr] at hwa
          cases hwa
        · exact hall x hx hw

namespace Scratch

variable {s : Scratch α}

theorem Marked.push (h : s.Marked) (u : α) : (s.push u).Marked := by
  intro v hv
  obtain ⟨hvu, hvs⟩ := not_or.1 (mt List.mem_cons.2 hv)
  simp only [Scratch.push, Function.update_of_ne hvu]
  exact h v hvs

theorem Marked.lower (h : s.Marked) {u : α} (hu : u ∈ s.touched) (k : Nat) :
    (s.lower u k).Marked := by
  intro v hv
  have hvu : v ≠ u := fun he => hv (he ▸ hu)
  simp only [Scratch.lower, Function.update_of_ne hvu]
  exact h v hv

theorem Marked.forget (h : s.Marked) : s.forget.Marked := by
  intro v hv
  obtain ⟨hi, hl⟩ := h v hv
  simp [Scratch.forget, hi, hl]

theorem Marked.clear (h : s.Marked) (hs : s.stack = []) : s.clear = Scratch.empty := by
  have hi : (fun u => if u ∈ s.touched then 0 else s.index u) = fun _ => 0 := by
    funext u
    split
    · rfl
    · rename_i hu
      exact (h u hu).1
  have hl : (fun u => if u ∈ s.touched then 0 else s.lowlink u) = fun _ => 0 := by
    funext u
    split
    · rfl
    · rename_i hu
      exact (h u hu).2
  simp only [Scratch.clear, hi, hl, hs, Scratch.empty]

end Scratch

theorem scan_marked (avail : α → Bool) {rec : α → Scratch α → Bool × Scratch α}
    (hrec : ∀ d s, s.Marked → (rec d s).2.Marked ∧ s.touched ⊆ (rec d s).2.touched)
    (u : α) (ds : List α) (s : Scratch α) (hs : s.Marked) (hu : u ∈ s.touched) :
    (scan avail rec u ds s).2.Marked ∧ s.touched ⊆ (scan avail rec u ds s).2.touched := by
  induction ds generalizing s with
  | nil => exact ⟨hs, List.Subset.refl _⟩
  | cons d ds ih =>
    simp only [scan]
    split
    · split
      · obtain ⟨hm, hsub⟩ := hrec d s hs
        split
        · obtain ⟨hm', hsub'⟩ := ih ((rec d s).2.lower u ((rec d s).2.lowlink d))
            (hm.lower (hsub hu) _) (hsub hu)
          exact ⟨hm', List.Subset.trans hsub hsub'⟩
        · exact ⟨hm, hsub⟩
      · split
        · exact ih (s.lower u (s.index d)) (hs.lower hu _) hu
        · exact ih s hs hu
    · exact ⟨hs, List.Subset.refl _⟩

variable (avail succ r)

theorem connect_marked (fuel : Nat) (u : α) (s : Scratch α) (hs : s.Marked) :
    (connect avail succ r fuel u s).2.Marked ∧
      s.touched ⊆ (connect avail succ r fuel u s).2.touched := by
  induction fuel generalizing u s with
  | zero => exact ⟨hs, List.Subset.refl _⟩
  | succ fuel ih =>
    obtain ⟨hm, hsub⟩ := scan_marked avail (fun d t ht => ih d t ht) u (succ u)
      (s.push u) (hs.push u) List.mem_cons_self
    have hsub' : s.touched ⊆ (scan avail (connect avail succ r fuel) u (succ u)
        (s.push u)).2.touched := List.Subset.trans (List.subset_cons_self u _) hsub
    simp only [connect]
    split
    · split
      · exact ⟨hm, hsub'⟩
      · exact ⟨hm, hsub'⟩
    · exact ⟨hm, hsub'⟩

theorem visitRoots_marked (fuel : Nat) (roots : List α) (s : Scratch α) (hs : s.Marked) :
    (visitRoots avail succ r fuel roots s).Marked := by
  induction roots generalizing s with
  | nil => exact hs
  | cons root roots ih =>
    simp only [visitRoots]
    split
    · exact ih s hs
    · have hm := (connect_marked avail succ r fuel root s hs).1
      refine ih _ ?_
      split
      · exact hm
      · exact hm.forget

end KCensus.Lib.Tarjan
