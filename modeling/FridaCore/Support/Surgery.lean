import FridaCore.Support.Forest

/-!
# Surgery on trees

Three ways to rearrange the tree in a forest: a node moves up to the parent of
its parent, changes places with a node further up, or hands its children to such
a node and is taken out. The tree stays one, and lookups are still served if
those that come by the places that change are.
-/

namespace FridaCore.Forest

open Option

variable {ι κ : Type*} {F F' : Forest ι κ} {r x y z a p q d c : ι} {k : κ} {key : ι → κ}
  {ok : ι → Prop}

def Serves (F : Forest ι κ) (ok : ι → Prop) (k : κ) (x : ι) : Prop := ∃ a c, F.Nearest k x a c ∧ ok c

/-- The tree of one forest is in the tree of the other if its links lead nowhere else. -/
theorem Reach.of_links (hlink : ∀ y m c, F'.child y m = some c → F.Reach r y → F.Reach r c)
    (h : F'.Reach r y) : F.Reach r y := by
  induction h using Reach.rec with
  | root => exact .root
  | child y m c _ hc ih => exact hlink y m c hc ih

theorem Reach.of_kept (gone : ι → Prop)
    (hkept : ∀ y m c, F.Reach r y → F.child y m = some c → ¬ gone c →
      ¬ gone y ∧ F'.child y m = some c)
    (h : F.Reach r y) (hy : ¬ gone y) : F'.Reach r y := by
  induction h using Reach.rec with
  | root => exact .root
  | child x m c hx hc ih =>
    obtain ⟨hgone, hc'⟩ := hkept x m c hx hc hy
    exact (ih hgone).child hc'

variable [DecidableEq ι] [DecidableEq κ]

def setChild (F : Forest ι κ) (x : ι) (k : κ) (c : Option ι) : Forest ι κ :=
  { F with child := fun y m => if y = x ∧ m = k then c else F.child y m }

def setParent (F : Forest ι κ) (x : ι) (p : Option ι) : Forest ι κ :=
  { F with parent := fun y => if y = x then p else F.parent y }

/-- `x` goes from `p` to `q`. -/
def move (F : Forest ι κ) (key : ι → κ) (x p q : ι) : Forest ι κ :=
  ((F.setChild p (key x) none).setChild q (key x) (some x)).setParent x (some q)

/-- `x` below `p` and `d` below `a`, which have the same key, change places. -/
def swap (F : Forest ι κ) (key : ι → κ) (x d p a : ι) : Forest ι κ :=
  (((F.setChild p (key x) (some d)).setParent d (some p)).setChild a (key x) (some x)).setParent x
    (some a)

/-- `d` takes over the children of `x` of which it has none with the same key, and
`x` is taken away from `p`. -/
def merge (F : Forest ι κ) (key : ι → κ) (x d p : ι) : Forest ι κ where
  child y m :=
    if y = p ∧ m = key x then none
    else if y = d then (F.child d m).or (F.child x m)
    else F.child y m
  parent y :=
    if y = x then none
    else if F.child x (key y) = some y ∧ F.child d (key y) = none then some d
    else F.parent y

theorem child_move : (F.move key x p q).child y k =
    if y = q ∧ k = key x then some x else if y = p ∧ k = key x then none else F.child y k := rfl

theorem parent_move : (F.move key x p q).parent y = if y = x then some q else F.parent y := rfl

theorem reach_of_move (hx : F.Reach r x) (hy : (F.move key x p q).Reach r y) : F.Reach r y := by
  refine hy.of_links fun y m c hc hy => ?_
  rw [child_move] at hc
  split at hc
  · cases hc
    exact hx
  · split at hc
    · cases hc
    · exact hy.child hc

section
variable (h : F.Rooted r key) (hx : F.Reach r x) (hp : F.parent x = some p)
include h hx hp

theorem move_rooted : (F.move key x p q).Rooted r key where
  root := by rw [parent_move, if_neg (h.root_ne hp), h.root]
  linked y m c hy hc := by
    have hy := reach_of_move hx hy
    rw [child_move] at hc
    rw [parent_move]
    split at hc
    · rename_i heq
      cases hc
      exact ⟨by rw [if_pos rfl, heq.1], heq.2.symm⟩
    · split at hc
      · cases hc
      · rename_i hneg
        obtain ⟨hparent, hkey⟩ := h.linked y m c hy hc
        have hne : c ≠ x := by
          rintro rfl
          rw [hp] at hparent
          exact hneg ⟨(some.inj hparent).symm, hkey.symm⟩
        exact ⟨by rw [if_neg hne, hparent], hkey⟩

theorem reach_move (hq : F.parent p = some q) (hfree : F.child q (key x) = none)
    (hy : F.Reach r y) :
    (F.move key x p q).Reach r y := by
  have hkept : ∀ y m c, F.Reach r y → F.child y m = some c → c ≠ x →
      (F.move key x p q).child y m = some c := by
    intro y m c hy hc hne
    rw [child_move, if_neg, if_neg, hc]
    · rintro ⟨rfl, rfl⟩
      rw [(h.parent hx hp).2] at hc
      exact hne (some.inj hc).symm
    · rintro ⟨rfl, rfl⟩
      rw [hfree] at hc
      cases hc
  have hreach_q : (F.move key x p q).Reach r q := by
    refine Reach.of_kept (F.Above x) (fun y m c hy hc hgone => ?_)
      (h.parent (h.parent hx hp).1 hq).1 (h.not_above_parent hx hp (.parent hq))
    refine ⟨fun habove => hgone (.up (h.linked y m c hy hc).1 habove), hkept y m c hy hc ?_⟩
    rintro rfl
    exact hgone .refl
  induction hy using Reach.rec with
  | root => exact .root
  | child y m c hy hc ih =>
    by_cases hne : c = x
    · exact hreach_q.child (by rw [child_move, if_pos ⟨rfl, rfl⟩, hne])
    · exact ih.child (hkept y m c hy hc hne)

/-- A lookup is still served if, in case it leaves `x`, it is served from `q`. -/
theorem move_serves (hq : F.parent p = some q) (hnone : ∀ a c, ¬ F.Nearest (key x) q a c)
    (hy : F.Reach r y)
    (hs : F.Serves ok k y)
    (hsafe : F.Visits k x y → F.child x k = none → k ≠ key x → F.Serves ok k q) :
    (F.move key x p q).Serves ok k y := by
  have hxp : ¬ F.Above x p := h.not_above_parent hx hp .refl
  have hxq : ¬ F.Above x q := h.not_above_parent hx hp (.parent hq)
  have hpq : ¬ F.Above p q := h.not_above_parent (h.parent hx hp).1 hq .refl
  have hne : p ≠ q := fun heq => hpq (heq ▸ .refl)
  have hnep : p ≠ x := fun heq => hxp (heq ▸ .refl)
  have hat : (F.move key x p q).Nearest (key x) q q x := .here (by rw [child_move, if_pos ⟨rfl, rfl⟩])
  -- where the forests differ
  have hsame : ∀ z, F.Reach r z →
      ¬ (k = key x ∧ (z = p ∨ z = q) ∨ z = x ∧ F.child x k = none) →
      (F.move key x p q).child z k = F.child z k ∧ (F.child z k = none →
        (F.move key x p q).parent z = F.parent z ∧ ∀ p', F.parent z = some p' → F.Reach r p') := by
    intro z hz hcut
    rw [not_or] at hcut
    refine ⟨?_, fun hleave => ⟨?_, fun p' hp' => (h.parent hz hp').1⟩⟩
    · rw [child_move, if_neg fun heq => hcut.1 ⟨heq.2, .inr heq.1⟩,
        if_neg fun heq => hcut.1 ⟨heq.2, .inl heq.1⟩]
    · rw [parent_move, if_neg]
      rintro rfl
      exact hcut.2 ⟨rfl, hleave⟩
  obtain ⟨a, c, hn, hok⟩ := hs
  rcases hn.or_cut hsame hy with hn' | ⟨z, hz, hcut, hv, hcont⟩
  · exact ⟨a, c, hn', hok⟩
  have hfound := hv.nearest_iff.mp hn
  rcases hcut with ⟨hk, hz | hz⟩ | ⟨hz, hleave⟩
  · -- `x` itself is found, now further up
    subst hk hz
    have hcx := (hfound.unique (.here (h.parent hx hp).2)).2
    refine ⟨q, x, hcont _ _ (.up ?_ ?_ hat), hcx ▸ hok⟩
    · rw [child_move, if_neg fun heq => hne heq.1, if_pos ⟨rfl, rfl⟩]
    · rw [parent_move, if_neg hnep, hq]
  · subst hk hz
    exact absurd hfound (hnone a c)
  · subst hz
    have hup : ∀ a c, (F.move key z p q).Nearest k q a c → (F.move key z p q).Nearest k z a c := by
      intro a c hn
      refine .up ?_ (by rw [parent_move, if_pos rfl]) hn
      rw [child_move, if_neg fun heq : z = q ∧ _ => hxq (heq.1 ▸ .refl),
        if_neg fun heq : z = p ∧ _ => hxp (heq.1 ▸ .refl), hleave]
    by_cases hk : k = key z
    · subst hk
      have hcx := (hfound.unique (.up hleave hp (.here (h.parent hx hp).2))).2
      exact ⟨q, z, hcont _ _ (hup _ _ hat), hcx ▸ hok⟩
    · obtain ⟨a', c', hn', hok'⟩ := hsafe hv hleave hk
      rcases hn'.or_cut hsame (h.parent (h.parent hx hp).1 hq).1 with hn' | ⟨z', -, hcut, hv', -⟩
      · exact ⟨a', c', hcont _ _ (hup _ _ hn'), hok'⟩
      · rcases hcut with ⟨heq, -⟩ | ⟨rfl, -⟩
        · exact absurd heq hk
        · exact absurd hv'.above hxq

end

/-- `x` is below `p` and `d` is below `a`, which is further up, and they have the
same key. -/
structure Rivals (F : Forest ι κ) (r : ι) (key : ι → κ) (x p q a d : ι) : Prop where
  rooted : F.Rooted r key
  reach : F.Reach r x
  parent : F.parent x = some p
  grand : F.parent p = some q
  above : F.Above a q
  child : F.child a (key x) = some d

namespace Rivals

variable (s : F.Rivals r key x p q a d)
include s

omit [DecidableEq ι] [DecidableEq κ]

theorem reach_p : F.Reach r p := (s.rooted.parent s.reach s.parent).1

theorem reach_q : F.Reach r q := (s.rooted.parent s.reach_p s.grand).1

theorem reach_a : F.Reach r a := s.rooted.reach_of_above s.reach_q s.above

theorem reach_d : F.Reach r d := s.reach_a.child s.child

theorem child_p : F.child p (key x) = some x := (s.rooted.parent s.reach s.parent).2

theorem parent_d : F.parent d = some a := (s.rooted.linked a _ d s.reach_a s.child).1

theorem key_d : key d = key x := (s.rooted.linked a _ d s.reach_a s.child).2

theorem not_above_x_p : ¬ F.Above x p := s.rooted.not_above_parent s.reach s.parent .refl

theorem not_above_x_q : ¬ F.Above x q :=
  s.rooted.not_above_parent s.reach s.parent (.parent s.grand)

theorem not_above_x_a : ¬ F.Above x a :=
  s.rooted.not_above_parent s.reach s.parent (s.above.trans (.parent s.grand))

theorem not_above_p_q : ¬ F.Above p q := s.rooted.not_above_parent s.reach_p s.grand .refl

theorem not_above_p_a : ¬ F.Above p a := s.rooted.not_above_parent s.reach_p s.grand s.above

theorem not_above_d_a : ¬ F.Above d a := s.rooted.not_above_parent s.reach_d s.parent_d .refl

theorem p_ne_a : p ≠ a := fun heq => s.not_above_p_a (heq ▸ .refl)

theorem d_ne_x : d ≠ x := by
  rintro rfl
  have hparent := s.parent_d
  rw [s.parent] at hparent
  exact s.p_ne_a (some.inj hparent)

theorem not_above_x_d : ¬ F.Above x d := by
  intro h
  cases h with
  | refl => exact s.d_ne_x rfl
  | up hp h =>
    rw [s.parent_d] at hp
    cases hp
    exact s.not_above_x_a h

theorem root_ne_x : r ≠ x := s.rooted.root_ne s.parent

theorem root_ne_d : r ≠ d := s.rooted.root_ne s.parent_d

theorem above_of_child (hc : F.child x k = some c) (ha : F.Above c z) : F.Above x z :=
  (Above.parent (s.rooted.linked x k c s.reach hc).1).trans ha

end Rivals

theorem child_swap : (F.swap key x d p a).child y k =
    if y = a ∧ k = key x then some x else if y = p ∧ k = key x then some d else F.child y k := rfl

theorem parent_swap : (F.swap key x d p a).parent y =
    if y = x then some a else if y = d then some p else F.parent y := rfl

theorem reach_of_swap (hx : F.Reach r x) (hd : F.Reach r d)
    (hy : (F.swap key x d p a).Reach r y) : F.Reach r y := by
  refine hy.of_links fun y m c hc hy => ?_
  rw [child_swap] at hc
  split at hc
  · cases hc
    exact hx
  · split at hc
    · cases hc
      exact hd
    · exact hy.child hc

section
variable (s : F.Rivals r key x p q a d)
include s

theorem swap_rooted : (F.swap key x d p a).Rooted r key := by
  refine ⟨?_, fun y m c hy hc' => ?_⟩
  · rw [parent_swap, if_neg s.root_ne_x, if_neg s.root_ne_d, s.rooted.root]
  · have hy := reach_of_swap s.reach s.reach_d hy
    rw [child_swap] at hc'
    rw [parent_swap]
    split at hc'
    · rename_i heq
      cases hc'
      exact ⟨by rw [if_pos rfl, heq.1], heq.2.symm⟩
    rename_i hneg
    split at hc'
    · rename_i heq
      cases hc'
      exact ⟨by rw [if_neg s.d_ne_x, if_pos rfl, heq.1], by rw [s.key_d, heq.2]⟩
    rename_i hneg'
    obtain ⟨hparent, hkey'⟩ := s.rooted.linked y m c hy hc'
    have hcx : c ≠ x := by
      rintro rfl
      rw [s.parent] at hparent
      exact hneg' ⟨(some.inj hparent).symm, hkey'.symm⟩
    have hcd : c ≠ d := by
      rintro rfl
      rw [s.parent_d] at hparent
      exact hneg ⟨(some.inj hparent).symm, by rw [← hkey', s.key_d]⟩
    exact ⟨by rw [if_neg hcx, if_neg hcd, hparent], hkey'⟩

theorem reach_swap (hd : ¬ F.Above d p) (hy : F.Reach r y) : (F.swap key x d p a).Reach r y := by
  have hkept : ∀ y m c, F.Reach r y → F.child y m = some c → c ≠ x → c ≠ d →
      (F.swap key x d p a).child y m = some c := by
    intro y m c hy hc' hcx hcd
    rw [child_swap, if_neg, if_neg, hc']
    · rintro ⟨rfl, rfl⟩
      rw [s.child_p] at hc'
      exact hcx (some.inj hc').symm
    · rintro ⟨rfl, rfl⟩
      rw [s.child] at hc'
      exact hcd (some.inj hc').symm
  -- what is below neither of the two stays where it is
  have hothers : ∀ y, F.Reach r y → ¬ F.Above x y → ¬ F.Above d y →
      (F.swap key x d p a).Reach r y := by
    intro y hy hyx hyd
    refine hy.of_kept (fun y => F.Above x y ∨ F.Above d y) (fun y m c hy hc' hgone => ?_)
      (not_or.mpr ⟨hyx, hyd⟩)
    obtain ⟨hgx, hgd⟩ := not_or.mp hgone
    have hparent := (s.rooted.linked y m c hy hc').1
    refine ⟨not_or.mpr ⟨fun hy => hgx (.up hparent hy), fun hy => hgd (.up hparent hy)⟩,
      hkept y m c hy hc' ?_ ?_⟩
    · rintro rfl
      exact hgx .refl
    · rintro rfl
      exact hgd .refl
  have hp' := hothers p s.reach_p s.not_above_x_p hd
  have ha' := hothers a s.reach_a s.not_above_x_a s.not_above_d_a
  induction hy using Reach.rec with
  | root => exact .root
  | child y m c hy hc' ih =>
    by_cases hcx : c = x
    · exact ha'.child (by rw [child_swap, if_pos ⟨rfl, rfl⟩, hcx])
    by_cases hcd : c = d
    · exact hp'.child (by rw [child_swap, if_neg fun heq => s.p_ne_a heq.1, if_pos ⟨rfl, rfl⟩, hcd])
    · exact ih.child (hkept y m c hy hc' hcx hcd)

/-- A lookup is still served if what it finds instead is fine and if, in case it
leaves `x` or `d`, it is served from where that is now. -/
theorem swap_serves (hd : ¬ F.Above d p) (hy : F.Reach r y) (hs : F.Serves ok k y)
    (hfoundx : k = key x → F.Nearest k y p x → ok d)
    (hfoundd : k = key x → F.Nearest k y a d → ok x)
    (hleavex : F.Visits k x y → F.child x k = none → k ≠ key x → F.Serves ok k a)
    (hleaved : F.Visits k d y → F.child d k = none → k ≠ key x → F.Serves ok k p) :
    (F.swap key x d p a).Serves ok k y := by
  have hatx : (F.swap key x d p a).child a (key x) = some x := by rw [child_swap, if_pos ⟨rfl, rfl⟩]
  have hatd : (F.swap key x d p a).child p (key x) = some d := by
    rw [child_swap, if_neg fun heq => s.p_ne_a heq.1, if_pos ⟨rfl, rfl⟩]
  have hkept : ∀ z, z ≠ a → z ≠ p → (F.swap key x d p a).child z k = F.child z k := by
    intro z hza hzp
    rw [child_swap, if_neg fun heq => hza heq.1, if_neg fun heq => hzp heq.1]
  -- where the forests differ
  have hsame : ∀ z, F.Reach r z →
      ¬ (k = key x ∧ (z = p ∨ z = a) ∨ z = x ∧ F.child x k = none ∨ z = d ∧ F.child d k = none) →
      (F.swap key x d p a).child z k = F.child z k ∧ (F.child z k = none →
        (F.swap key x d p a).parent z = F.parent z ∧ ∀ p', F.parent z = some p' → F.Reach r p') := by
    intro z hz hcut
    simp only [not_or] at hcut
    refine ⟨?_, fun hleave => ⟨?_, fun p' hp' => (s.rooted.parent hz hp').1⟩⟩
    · rw [child_swap, if_neg fun heq => hcut.1 ⟨heq.2, .inr heq.1⟩,
        if_neg fun heq => hcut.1 ⟨heq.2, .inl heq.1⟩]
    · rw [parent_swap, if_neg, if_neg]
      · rintro rfl
        exact hcut.2.2 ⟨rfl, hleave⟩
      · rintro rfl
        exact hcut.2.1 ⟨rfl, hleave⟩
  obtain ⟨b, c, hn, hok⟩ := hs
  rcases hn.or_cut hsame hy with hn' | ⟨z, hz, hcut, hv, hcont⟩
  · exact ⟨b, c, hn', hok⟩
  have hfound := hv.nearest_iff.mp hn
  rcases hcut with ⟨hk, hz | hz⟩ | ⟨hz, hleave⟩ | ⟨hz, hleave⟩
  · subst hk hz
    exact ⟨z, d, hcont _ _ (.here hatd), hfoundx rfl (hv.nearest_iff.mpr (.here s.child_p))⟩
  · subst hk hz
    exact ⟨z, x, hcont _ _ (.here hatx), hfoundd rfl (hv.nearest_iff.mpr (.here s.child))⟩
  · -- a lookup that leaves `x` goes on from `a`
    subst hz
    have hup : ∀ b c, (F.swap key z d p a).Nearest k a b c →
        (F.swap key z d p a).Nearest k z b c := by
      intro b c hn
      refine .up ?_ (by rw [parent_swap, if_pos rfl]) hn
      rw [hkept z (fun heq => s.not_above_x_a (heq ▸ .refl))
        (fun heq => s.not_above_x_p (heq ▸ .refl)), hleave]
    by_cases hk : k = key z
    · subst hk
      have hcx := (hfound.unique (.up hleave s.parent (.here s.child_p))).2
      exact ⟨a, z, hcont _ _ (hup _ _ (.here hatx)), hcx ▸ hok⟩
    · obtain ⟨b', c', hn', hok'⟩ := hleavex hv hleave hk
      rcases hn'.or_cut hsame s.reach_a with hn' | ⟨z', -, hcut, hv', -⟩
      · exact ⟨b', c', hcont _ _ (hup _ _ hn'), hok'⟩
      · rcases hcut with ⟨heq, -⟩ | ⟨rfl, -⟩ | ⟨rfl, -⟩
        · exact absurd heq hk
        · exact absurd hv'.above s.not_above_x_a
        · exact absurd hv'.above s.not_above_d_a
  · -- a lookup that leaves `d` goes on from `p`
    subst hz
    have hup : ∀ b c, (F.swap key x z p a).Nearest k p b c →
        (F.swap key x z p a).Nearest k z b c := by
      intro b c hn
      refine .up ?_ (by rw [parent_swap, if_neg s.d_ne_x, if_pos rfl]) hn
      rw [hkept z (fun heq => s.not_above_d_a (heq ▸ .refl)) (fun heq => hd (heq ▸ .refl)), hleave]
    by_cases hk : k = key x
    · subst hk
      have hcd := (hfound.unique (.up hleave s.parent_d (.here s.child))).2
      exact ⟨p, z, hcont _ _ (hup _ _ (.here hatd)), hcd ▸ hok⟩
    · obtain ⟨b', c', hn', hok'⟩ := hleaved hv hleave hk
      rcases hn'.or_cut hsame s.reach_p with hn' | ⟨z', -, hcut, hv', -⟩
      · exact ⟨b', c', hcont _ _ (hup _ _ hn'), hok'⟩
      · rcases hcut with ⟨heq, -⟩ | ⟨rfl, -⟩ | ⟨rfl, -⟩
        · exact absurd heq hk
        · exact absurd hv'.above s.not_above_x_p
        · exact absurd hv'.above hd

end

theorem child_merge : (F.merge key x d p).child y k =
    if y = p ∧ k = key x then none
    else if y = d then (F.child d k).or (F.child x k) else F.child y k := rfl

theorem parent_merge : (F.merge key x d p).parent y =
    if y = x then none
    else if F.child x (key y) = some y ∧ F.child d (key y) = none then some d
    else F.parent y := rfl

/-- `d` takes over the child `c` of `x`. -/
def Adopted (F : Forest ι κ) (key : ι → κ) (x d c : ι) : Prop :=
  F.child x (key c) = some c ∧ F.child d (key c) = none

theorem parent_merge_of_not_adopted (hyx : y ≠ x) (hy : ¬ F.Adopted key x d y) :
    (F.merge key x d p).parent y = F.parent y := by
  rw [parent_merge, if_neg hyx]
  exact if_neg hy

theorem parent_merge_of_adopted (hyx : y ≠ x) (hy : F.Adopted key x d y) :
    (F.merge key x d p).parent y = some d := by
  rw [parent_merge, if_neg hyx]
  exact if_pos hy

/-- `y` is `x` or below a child of `x` that is not taken over. -/
def Dropped (F : Forest ι κ) (x d y : ι) : Prop :=
  y = x ∨ ∃ m c, F.child x m = some c ∧ F.child d m ≠ none ∧ F.Above c y

/-- Once `x` is taken out, a lookup comes by `d` or a child that `d` takes over. -/
def Joins (F : Forest ι κ) (key : ι → κ) (x d p : ι) (k : κ) (y : ι) : Prop :=
  (F.setChild p (key x) none).Visits k d y ∨
    ∃ c, F.Adopted key x d c ∧ F.child c k = none ∧ (F.setChild p (key x) none).Visits k c y

theorem Visits.setChild_none (h : F.Visits k z y) : (F.setChild x m none).Visits k z y := by
  induction h with
  | here => exact .here
  | up hc hp _ ih =>
    refine .up ?_ hp ih
    simp only [setChild]
    split
    · rfl
    · exact hc

section
variable (s : F.Rivals r key x p q a d)
include s

theorem reach_of_merge (hy : (F.merge key x d p).Reach r y) : F.Reach r y ∧ y ≠ x := by
  induction hy using Reach.rec with
  | root => exact ⟨.root, s.root_ne_x⟩
  | child y m c _ hc ih =>
    obtain ⟨hy, hyx⟩ := ih
    rw [child_merge] at hc
    split at hc
    · cases hc
    rename_i hneg
    have hold : ∀ c, F.child y m = some c → F.Reach r c ∧ c ≠ x := by
      refine fun c hc' => ⟨hy.child hc', ?_⟩
      rintro rfl
      obtain ⟨hparent, hkey⟩ := s.rooted.linked y m c hy hc'
      rw [s.parent] at hparent
      exact hneg ⟨(some.inj hparent).symm, hkey.symm⟩
    split at hc
    · rename_i heq
      subst heq
      rcases or_eq_some_iff.mp hc with hc | ⟨-, hc⟩
      · exact hold c hc
      · refine ⟨s.reach.child hc, ?_⟩
        rintro rfl
        exact s.rooted.not_above_parent s.reach (s.rooted.linked c m c s.reach hc).1 .refl .refl
    · exact hold c hc

theorem merge_rooted : (F.merge key x d p).Rooted r key := by
  refine ⟨?_, fun y m c hy hc => ?_⟩
  · rw [parent_merge, if_neg s.root_ne_x, if_neg, s.rooted.root]
    exact fun ⟨hchild, _⟩ => s.rooted.root_ne (s.rooted.linked x _ r s.reach hchild).1 rfl
  · have hcx := (reach_of_merge s (hy.child hc)).2
    obtain ⟨hy, hyx⟩ := reach_of_merge s hy
    -- a child that is not a child of `x` keeps its parent
    have hold : F.child y m = some c → (F.merge key x d p).parent c = some y ∧ key c = m := by
      intro hc
      obtain ⟨hparent, hkey⟩ := s.rooted.linked y m c hy hc
      refine ⟨?_, hkey⟩
      rw [parent_merge, if_neg hcx, if_neg, hparent]
      rintro ⟨hchild, -⟩
      have hparent' := (s.rooted.linked x _ c s.reach hchild).1
      rw [hparent] at hparent'
      exact hyx (some.inj hparent')
    rw [child_merge] at hc
    split at hc
    · cases hc
    split at hc
    · rename_i heq
      subst heq
      rcases or_eq_some_iff.mp hc with hc | ⟨hnone, hc⟩
      · exact hold hc
      · have hkey := (s.rooted.linked x m c s.reach hc).2
        exact ⟨by rw [parent_merge, if_neg hcx, if_pos ⟨hkey ▸ hc, hkey ▸ hnone⟩], hkey⟩
    · exact hold hc

theorem child_merge_kept (hc : F.child y m = some c) (hcx : c ≠ x) :
    (F.merge key x d p).child y m = some c := by
  rw [child_merge, if_neg]
  · split
    · rename_i heq
      rw [← heq, hc, some_or]
    · exact hc
  · rintro ⟨rfl, rfl⟩
    rw [s.child_p] at hc
    exact hcx (some.inj hc).symm

theorem reach_merge (hy : F.Reach r y) (hyx : ¬ F.Above x y) : (F.merge key x d p).Reach r y := by
  refine hy.of_kept (F.Above x) (fun y m c hy hc hgone => ?_) hyx
  refine ⟨fun h => hgone (.up (s.rooted.linked y m c hy hc).1 h), child_merge_kept s hc ?_⟩
  rintro rfl
  exact hgone .refl

theorem reach_merge_of_not_dropped (hy : F.Reach r y) (hdrop : ¬ F.Dropped x d y) :
    (F.merge key x d p).Reach r y := by
  induction hy using Reach.rec with
  | root => exact .root
  | child y m c hy hc ih =>
    have hcx : c ≠ x := fun heq => hdrop (.inl heq)
    by_cases hyx : y = x
    · subst hyx
      have hnone : F.child d m = none := by
        by_contra hne
        exact hdrop (.inr ⟨m, c, hc, hne, .refl⟩)
      have hneg : ¬ (d = p ∧ m = key y) := by
        rintro ⟨rfl, rfl⟩
        rw [s.child_p] at hnone
        cases hnone
      refine (reach_merge s s.reach_d s.not_above_x_d).child (k := m) ?_
      rw [child_merge, if_neg hneg, if_pos rfl, hnone, none_or, hc]
    · refine (ih fun hdrop' => hdrop ?_).child (child_merge_kept s hc hcx)
      rcases hdrop' with heq | ⟨m', c', hc', hne, habove⟩
      · exact absurd heq hyx
      · exact .inr ⟨m', c', hc', hne, .up (s.rooted.linked y m c hy hc).1 habove⟩

theorem parent_merge_of_not_above (hz : ¬ F.Above x z) :
    (F.merge key x d p).parent z = F.parent z := by
  refine parent_merge_of_not_adopted (fun heq => hz (heq ▸ .refl)) fun hadopt => ?_
  exact hz (s.above_of_child hadopt.1 .refl)

theorem merge_same (hz : (F.merge key x d p).Reach r z)
    (hcut : ¬ (k = key x ∧ z = p ∨ z = d ∨ F.Adopted key x d z ∧ F.child z k = none)) :
    (F.merge key x d p).child z k = F.child z k ∧ (F.child z k = none →
      (F.merge key x d p).parent z = F.parent z ∧
        ∀ p', F.parent z = some p' → (F.merge key x d p).Reach r p') := by
  simp only [not_or] at hcut
  refine ⟨?_, fun hleave => ?_⟩
  · rw [child_merge, if_neg fun heq => hcut.1 ⟨heq.2, heq.1⟩, if_neg hcut.2.1]
  · have hkept : (F.merge key x d p).parent z = F.parent z :=
      parent_merge_of_not_adopted (reach_of_merge s hz).2 fun hz => hcut.2.2 ⟨hz, hleave⟩
    exact ⟨hkept, fun p' hp' => ((merge_rooted s).parent hz (hkept.trans hp')).1⟩

theorem merge_serves_target (hhere : ∀ c, (F.merge key x d p).child d k = some c → ok c)
    (hup : (F.merge key x d p).child d k = none → F.Serves ok k a) :
    (F.merge key x d p).Serves ok k d := by
  cases hleave : (F.merge key x d p).child d k with
  | some c => exact ⟨d, c, .here hleave, hhere c hleave⟩
  | none =>
    obtain ⟨b, c, hn, hok⟩ := hup hleave
    have hparent := (parent_merge_of_not_above s s.not_above_x_d).trans s.parent_d
    rcases hn.or_cut (fun z => merge_same s) (reach_merge s s.reach_a s.not_above_x_a) with
      hn' | ⟨z, -, hcut, hv, -⟩
    · exact ⟨b, c, .up hleave hparent hn', hok⟩
    · rcases hcut with ⟨-, rfl⟩ | rfl | ⟨hz, -⟩
      · exact absurd hv.above s.not_above_p_a
      · exact absurd hv.above s.not_above_d_a
      · exact absurd (s.above_of_child hz.1 hv.above) s.not_above_x_a

/-- A lookup is still served if `d` is as good as `x` and if, in case it now comes
by `d`, it is served from there. -/
theorem merge_serves (hnear : F.Nearest (key x) q a d) (hy : (F.merge key x d p).Reach r y)
    (hs : F.Serves ok k y) (hxd : ok x → ok d)
    (hfrom : F.Joins key x d p k y → (F.merge key x d p).Serves ok k d) :
    (F.merge key x d p).Serves ok k y := by
  have hsame := fun z => merge_same (k := k) (z := z) s
  obtain ⟨b, c, hn, hok⟩ := hs
  rcases hn.or_cut hsame hy with hn' | ⟨z, hz, hcut, hv, hcont⟩
  · exact ⟨b, c, hn', hok⟩
  rcases hcut with ⟨hk, hzp⟩ | hzd | ⟨hadopt, hleave⟩
  · -- `x` was found, and now `d` is, unless the lookup comes by `d` on its way up
    subst hk hzp
    have hcx := ((hv.nearest_iff.mp hn).unique (.here s.child_p)).2
    have hup : ∀ b c, (F.merge key x d z).Nearest (key x) q b c →
        (F.merge key x d z).Nearest (key x) z b c := fun b c =>
      .up (by rw [child_merge, if_pos ⟨rfl, rfl⟩])
        ((parent_merge_of_not_above s s.not_above_x_p).trans s.grand)
    rcases hnear.or_cut hsame (reach_merge s s.reach_q s.not_above_x_q) with
      hn' | ⟨z', -, hcut, hv', hcont'⟩
    · exact ⟨a, d, hcont _ _ (hup _ _ hn'), hxd (hcx ▸ hok)⟩
    · rcases hcut with ⟨-, rfl⟩ | rfl | ⟨hz', -⟩
      · exact absurd hv'.above s.not_above_p_q
      · have hvisit : (F.setChild z (key x) none).Visits (key x) z' z :=
          .up (if_pos ⟨rfl, rfl⟩) s.grand hv'.setChild_none
        obtain ⟨b', c', hn', hok'⟩ := hfrom (.inl (hvisit.trans hv.setChild_none))
        exact ⟨b', c', hcont _ _ (hup _ _ (hcont' _ _ hn')), hok'⟩
      · exact absurd (s.above_of_child hz'.1 hv'.above) s.not_above_x_q
  · subst hzd
    obtain ⟨b', c', hn', hok'⟩ := hfrom (.inl hv.setChild_none)
    exact ⟨b', c', hcont _ _ hn', hok'⟩
  · obtain ⟨b', c', hn', hok'⟩ := hfrom (.inr ⟨z, hadopt, hleave, hv.setChild_none⟩)
    have hzd : z ≠ d := by
      rintro rfl
      exact s.not_above_x_d (s.above_of_child hadopt.1 .refl)
    refine ⟨b', c', hcont _ _ (.up ?_ ?_ hn'), hok'⟩
    · rw [child_merge, if_neg hzd]
      split
      · rfl
      · exact hleave
    · exact parent_merge_of_adopted (reach_of_merge s hz).2 hadopt

end

end FridaCore.Forest
