import Mathlib

/-!
# Lookup in forests

Nodes have children by key, and may have a parent. A lookup starts at a node and
goes up until it comes by one with a child of that key. In the tree below a root
in which children and parents agree, going up ends at the root; the lookups of
two forests are the same as far as they do not come by a node at which the
forests differ.
-/

namespace FridaCore

@[ext] structure Forest (ι κ : Type*) where
  child : ι → κ → Option ι
  parent : ι → Option ι

namespace Forest

variable {ι κ : Type*}

inductive At (F : Forest ι κ) (r : ι) : ι → Nat → Prop
  | root : At F r r 0
  | child : At F r x n → F.child x k = some c → At F r c (n + 1)

def Reach (F : Forest ι κ) (r x : ι) : Prop := ∃ n, F.At r x n

/-- `a` is the node `y` or one above it. -/
inductive Above (F : Forest ι κ) (a : ι) : ι → Prop
  | refl : Above F a a
  | up : F.parent y = some p → Above F a p → Above F a y

/-- Going up from `x`, the first node with a child of that key is `anc`, and the
child is `c`. -/
inductive Nearest (F : Forest ι κ) (k : κ) : ι → ι → ι → Prop
  | here : F.child x k = some c → Nearest F k x x c
  | up : F.child x k = none → F.parent x = some p → Nearest F k p anc c → Nearest F k x anc c

/-- A lookup that starts at `y` comes by `z`. -/
inductive Visits (F : Forest ι κ) (k : κ) (z : ι) : ι → Prop
  | here : Visits F k z z
  | up : F.child y k = none → F.parent y = some p → Visits F k z p → Visits F k z y

/-- In the tree below the root, children are stored by their keys and linked to
their parents. -/
structure Rooted (F : Forest ι κ) (r : ι) (key : ι → κ) : Prop where
  root : F.parent r = none
  linked : ∀ x k c, F.Reach r x → F.child x k = some c → F.parent c = some x ∧ key c = k

variable {F F' : Forest ι κ} {r x y z a p c : ι} {k : κ} {key : ι → κ} {n : Nat}

theorem Reach.root : F.Reach r r := ⟨0, .root⟩

theorem Reach.child (h : F.Reach r x) (hc : F.child x k = some c) : F.Reach r c := by
  obtain ⟨n, hn⟩ := h
  exact ⟨n + 1, hn.child hc⟩

theorem Reach.rec {motive : ∀ y, F.Reach r y → Prop} (root : motive r .root)
    (child : ∀ x k c (hx : F.Reach r x) (hc : F.child x k = some c), motive x hx →
      motive c (hx.child hc))
    {y : ι} (h : F.Reach r y) : motive y h := by
  obtain ⟨n, hn⟩ := h
  induction hn with
  | root => exact root
  | child hx hc ih => exact child _ _ _ ⟨_, hx⟩ hc ih

namespace Rooted

section
variable (h : F.Rooted r key)
include h

theorem root_ne (hp : F.parent x = some p) : r ≠ x := by
  rintro rfl
  rw [h.root] at hp
  cases hp

theorem at_parent (hx : F.At r x n) (hp : F.parent x = some p) :
    ∃ m, n = m + 1 ∧ F.At r p m ∧ F.child p (key x) = some x := by
  cases hx with
  | root => exact absurd rfl (h.root_ne hp)
  | child hq hc =>
    obtain ⟨hparent, hkey⟩ := h.linked _ _ _ ⟨_, hq⟩ hc
    rw [hp] at hparent
    cases hparent
    exact ⟨_, rfl, hq, hkey ▸ hc⟩

theorem parent (hx : F.Reach r x) (hp : F.parent x = some p) :
    F.Reach r p ∧ F.child p (key x) = some x := by
  obtain ⟨n, hn⟩ := hx
  obtain ⟨m, -, hm, hc⟩ := h.at_parent hn hp
  exact ⟨⟨m, hm⟩, hc⟩

theorem exists_parent (hx : F.Reach r x) (hne : x ≠ r) : ∃ p, F.parent x = some p := by
  obtain ⟨n, hn⟩ := hx
  cases hn with
  | root => exact absurd rfl hne
  | child hp hc => exact ⟨_, (h.linked _ _ _ ⟨_, hp⟩ hc).1⟩

theorem parent_eq_none_iff (hx : F.Reach r x) : F.parent x = none ↔ x = r := by
  constructor
  · intro hnone
    by_contra hne
    obtain ⟨p, hp⟩ := h.exists_parent hx hne
    rw [hnone] at hp
    cases hp
  · rintro rfl
    exact h.root

theorem at_unique (hn : F.At r x n) (hm : F.At r x m) : n = m := by
  induction hn generalizing m with
  | root =>
    cases hm with
    | root => rfl
    | child hp hc => exact absurd rfl (h.root_ne (h.linked _ _ _ ⟨_, hp⟩ hc).1)
  | child hx hc ih =>
    obtain ⟨m', rfl, hm', -⟩ := h.at_parent hm (h.linked _ _ _ ⟨_, hx⟩ hc).1
    rw [ih hm']

theorem reach_of_above (hy : F.Reach r y) (ha : F.Above a y) : F.Reach r a := by
  induction ha with
  | refl => exact hy
  | up hp _ ih => exact ih (h.parent hy hp).1

theorem at_above (hy : F.At r y n) (ha : F.Above a y) : ∃ m ≤ n, F.At r a m := by
  induction ha generalizing n with
  | refl => exact ⟨n, le_rfl, hy⟩
  | up hp _ ih =>
    obtain ⟨m, rfl, hm, -⟩ := h.at_parent hy hp
    obtain ⟨l, hl, hat⟩ := ih hm
    exact ⟨l, hl.trans (Nat.le_succ m), hat⟩

theorem not_above_parent (hx : F.Reach r x) (hp : F.parent x = some p) (ha : F.Above a p) :
    ¬ F.Above x a := by
  intro hxa
  obtain ⟨n, hn⟩ := hx
  obtain ⟨m, rfl, hm, -⟩ := h.at_parent hn hp
  obtain ⟨l, hl, hat⟩ := h.at_above hm ha
  obtain ⟨l', hl', hat'⟩ := h.at_above hat hxa
  have heq := h.at_unique hn hat'
  omega

end

end Rooted

theorem Above.parent (hp : F.parent y = some p) : F.Above p y := .up hp .refl

theorem Above.trans (h : F.Above a z) (h' : F.Above z y) : F.Above a y := by
  induction h' with
  | refl => exact h
  | up hp _ ih => exact .up hp ih

theorem At.lt_card (h : F.Rooted r key) {s : Finset ι} (hs : ∀ x, F.Reach r x → x ∈ s)
    (hx : F.At r x n) : n < s.card := by
  classical
  -- the nodes from the root down to `x` are different because their depths are
  have hpath : ∃ t ⊆ s, t.card = n + 1 ∧ ∀ z ∈ t, ∃ m ≤ n, F.At r z m := by
    induction hx with
    | root => exact ⟨{r}, by simpa using hs _ .root, rfl, by simpa using At.root⟩
    | @child x n k c hx hc ih =>
      obtain ⟨t, hts, hcard, hdepth⟩ := ih
      have hnew : c ∉ t := by
        intro hmem
        obtain ⟨m, hm, hat⟩ := hdepth c hmem
        have heq := h.at_unique (hx.child hc) hat
        omega
      refine ⟨insert c t, Finset.insert_subset (hs _ ⟨_, hx.child hc⟩) hts, ?_, fun z hz => ?_⟩
      · rw [Finset.card_insert_of_notMem hnew, hcard]
      · rcases Finset.mem_insert.mp hz with rfl | hz
        · exact ⟨_, le_rfl, hx.child hc⟩
        · obtain ⟨m, hm, hat⟩ := hdepth z hz
          exact ⟨m, hm.trans (Nat.le_succ n), hat⟩
  obtain ⟨t, hts, hcard, -⟩ := hpath
  have hle := Finset.card_le_card hts
  omega

theorem Nearest.child (h : F.Nearest k x a c) : F.child a k = some c := by
  induction h with
  | here h => exact h
  | up _ _ _ ih => exact ih

theorem Nearest.above (h : F.Nearest k x a c) : F.Above a x := by
  induction h with
  | here h => exact .refl
  | up _ hp _ ih => exact .up hp ih

theorem Nearest.visits (h : F.Nearest k x a c) : F.Visits k a x := by
  induction h with
  | here h => exact .here
  | up hc hp _ ih => exact .up hc hp ih

theorem Visits.above (h : F.Visits k z y) : F.Above z y := by
  induction h with
  | here => exact .refl
  | up _ hp _ ih => exact .up hp ih

theorem Visits.trans (h : F.Visits k z x) (h' : F.Visits k x y) : F.Visits k z y := by
  induction h' with
  | here => exact h
  | up hc hp _ ih => exact .up hc hp ih

theorem Visits.nearest_iff (h : F.Visits k z y) : F.Nearest k y a c ↔ F.Nearest k z a c := by
  induction h with
  | here => rfl
  | up hc hp _ ih =>
    rw [← ih]
    constructor
    · intro hn
      cases hn with
      | here h =>
        rw [hc] at h
        cases h
      | up _ hp' hn =>
        rw [hp] at hp'
        cases hp'
        exact hn
    · exact .up hc hp

theorem Nearest.unique (h : F.Nearest k x a c) (h' : F.Nearest k x a' c') : a = a' ∧ c = c' := by
  have h' := h.visits.nearest_iff.mp h'
  cases h' with
  | here hc =>
    rw [h.child] at hc
    exact ⟨rfl, Option.some.inj hc⟩
  | up hc =>
    rw [h.child] at hc
    cases hc

/-- What is at the root can be found from everywhere, unless something else is. -/
theorem Rooted.exists_nearest (h : F.Rooted r key) (hc : F.child r k = some c)
    (hx : F.Reach r x) : ∃ a c, F.Nearest k x a c := by
  induction hx using Reach.rec with
  | root => exact ⟨r, c, .here hc⟩
  | child y m x hy hx ih =>
    cases hcx : F.child x k with
    | some c' => exact ⟨x, c', .here hcx⟩
    | none =>
      obtain ⟨a, c', hn⟩ := ih
      exact ⟨a, c', .up hcx (h.linked y m x hy hx).1 hn⟩

/-- A lookup in another forest finds the same unless it comes by a node, the cut,
at which the forests differ; from there on, it finds what is found from the cut. -/
theorem Nearest.or_cut {live cut : ι → Prop}
    (hsame : ∀ z, live z → ¬ cut z → F'.child z k = F.child z k ∧
      (F.child z k = none → F'.parent z = F.parent z ∧ ∀ p, F.parent z = some p → live p))
    (hx : live x) (h : F.Nearest k x a c) :
    F'.Nearest k x a c ∨ ∃ z, live z ∧ cut z ∧ F.Visits k z x ∧
      ∀ a' c', F'.Nearest k z a' c' → F'.Nearest k x a' c' := by
  induction h with
  | @here x c hc =>
    by_cases hcut : cut x
    · exact .inr ⟨x, hx, hcut, .here, fun _ _ => id⟩
    · exact .inl (.here ((hsame x hx hcut).1.trans hc))
  | @up x p a c hc hp _ ih =>
    by_cases hcut : cut x
    · exact .inr ⟨x, hx, hcut, .here, fun _ _ => id⟩
    · obtain ⟨hchild, hup⟩ := hsame x hx hcut
      obtain ⟨hparent, hlive⟩ := hup hc
      rw [hc] at hchild
      rw [hp] at hparent
      rcases ih (hlive p hp) with hn | ⟨z, hz, hcut', hv, hn⟩
      · exact .inl (.up hchild hparent hn)
      · exact .inr ⟨z, hz, hcut', .up hc hp hv, fun a' c' h => .up hchild hparent (hn a' c' h)⟩

end Forest

end FridaCore
