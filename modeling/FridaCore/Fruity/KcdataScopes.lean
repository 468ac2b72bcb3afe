import FridaCore.Fruity.Kcdata

/-!
# Items and the ends of containers

What a whole item is, which end matches the beginning of a container, and which places
there are between them. The cursor that looks ahead finds the matching end.
-/

namespace FridaCore.Fruity.Kcdata

open Relation.ReflTransGen

variable {data : Buffer} {id : Nat}

def padded (n : Nat) : Nat := n + (alignmentSize - n % alignmentSize) % alignmentSize

def itemEnd (start : Nat) (h : ItemHeader) : Nat := padded (start + headerSize + h.size)

structure ItemAt (data : Buffer) (start : Nat) (h : ItemHeader) : Prop where
  header : h = readItemHeaderFields data start
  within : itemEnd start h ≤ data.bytes.length

theorem le_padded (n : Nat) : n ≤ padded n := Nat.le_add_right _ _

theorem ItemAt.padding (hitem : ItemAt data start h) : itemEnd start h ≤ data.size :=
  data.size_eq ▸ hitem.within

theorem ItemAt.room (hitem : ItemAt data start h) : start + headerSize + h.size ≤ data.size :=
  (le_padded _).trans hitem.padding

theorem lt_itemEnd (start : Nat) (h : ItemHeader) : start < itemEnd start h := by
  have := le_padded (start + headerSize + h.size)
  simp only [itemEnd, headerSize] at this ⊢
  omega

theorem skip_eq_ok (h : offset + n ≤ data.size) : skip data offset n = .ok (offset + n) := by
  rw [skip, if_neg (by omega)]

theorem align_eq (h : offset ≤ data.size) : align data offset alignmentSize =
    if padded offset ≤ data.size then .ok (padded offset) else .error truncated := by
  simp only [align, skip, padded, alignmentSize]
  by_cases hrem : offset % 16 = 0
  · simp [hrem, h]
  · have hpad : (16 - offset % 16) % 16 = 16 - offset % 16 := by omega
    simp only [ne_eq, hrem, not_false_eq_true, if_true, hpad]
    by_cases hfits : offset + (16 - offset % 16) ≤ data.size
    · have hskip : ¬data.size - offset < 16 - offset % 16 := by omega
      simp [hfits, hskip]
    · have hskip : data.size - offset < 16 - offset % 16 := by omega
      simp [hfits, hskip]

theorem align_eq_ok (h : padded offset ≤ data.size) :
    align data offset alignmentSize = .ok (padded offset) := by
  rw [align_eq ((le_padded offset).trans h), if_pos h]

theorem passItem_eq_ok : passItem data offset = .ok (h, next) ↔
    ItemAt data offset h ∧ next = itemEnd offset h := by
  simp only [passItem, bind, Except.bind, pure, Except.pure, throw, throwThe, MonadExceptOf.throw]
  constructor
  · intro hpass
    by_cases hheader : data.size - offset < headerSize
    · simp [hheader] at hpass
    by_cases hsize : (readItemHeaderFields data offset).size > data.size - (offset + headerSize)
    · simp [hheader, hsize] at hpass
    have hroom : offset + headerSize + (readItemHeaderFields data offset).size ≤ data.size := by
      simp only [headerSize] at hheader hsize ⊢
      omega
    simp only [hheader, hsize, if_false, skip_eq_ok hroom, align_eq hroom] at hpass
    split at hpass
    · cases hpass
    · next heq =>
      split at heq
      · next hpadded =>
        simp only [Except.ok.injEq, Prod.mk.injEq] at heq hpass
        obtain ⟨rfl, rfl⟩ := hpass
        exact ⟨⟨rfl, data.size_eq ▸ hpadded⟩, heq.symm⟩
      · cases heq
  · rintro ⟨hitem, rfl⟩
    have hroom := hitem.room
    have hpadding := hitem.padding
    obtain rfl := hitem.header
    have hheader : ¬data.size - offset < headerSize := by omega
    have hsize : ¬(readItemHeaderFields data offset).size > data.size - (offset + headerSize) := by
      omega
    simp [hheader, hsize, skip_eq_ok hroom, align_eq_ok hpadding, itemEnd]

/-- From one place to another there are items in which every container that begins ends. -/
inductive Balanced (data : Buffer) : Nat → Nat → Prop
  | nil (start : Nat) : Balanced data start start
  | item {start stop : Nat} {h : ItemHeader} : ItemAt data start h → h.type ≠ containerBegin →
      h.type ≠ containerEnd → Balanced data (itemEnd start h) stop → Balanced data start stop
  | container {start last stop : Nat} {h h' : ItemHeader} : ItemAt data start h →
      h.type = containerBegin → Balanced data (itemEnd start h) last → ItemAt data last h' →
      h'.type = containerEnd → h'.flags = h.flags → Balanced data (itemEnd last h') stop →
      Balanced data start stop

structure Scope.Genuine (data : Buffer) (s : Scope) : Prop where
  begins : ∃ h, ItemAt data s.beginItemOffset h ∧ h.type = containerBegin ∧
    h.flags = s.endId ∧ s.bodyStart = itemEnd s.beginItemOffset h
  balanced : Balanced data s.bodyStart s.endItemOffset
  ends : ∃ h, ItemAt data s.endItemOffset h ∧ h.type = containerEnd ∧ h.flags = s.endId

inductive Pass (data : Buffer) : Nat × List Nat → Nat × List Nat → Prop
  | item {start : Nat} {ids : List Nat} {h : ItemHeader} : ItemAt data start h →
      h.type ≠ containerBegin → h.type ≠ containerEnd → Pass data (start, ids) (itemEnd start h, ids)
  | enter {start : Nat} {ids : List Nat} {h : ItemHeader} : ItemAt data start h →
      h.type = containerBegin → Pass data (start, ids) (itemEnd start h, h.flags :: ids)
  | leave {start id : Nat} {ids : List Nat} {h : ItemHeader} : ItemAt data start h →
      h.type = containerEnd → h.flags = id → Pass data (start, id :: ids) (itemEnd start h, ids)

abbrev Passes (data : Buffer) := Relation.ReflTransGen (Pass data)

def Follows (data : Buffer) (a b : Nat) : Prop := ∃ h, ItemAt data a h ∧ b = itemEnd a h

abbrev Reaches (data : Buffer) := Relation.ReflTransGen (Follows data)

theorem Pass.follows (h : Pass data c d) : Follows data c.1 d.1 := by
  cases h with
  | item hitem | enter hitem | leave hitem => exact ⟨_, hitem, rfl⟩

theorem Passes.reaches (h : Passes data c d) : Reaches data c.1 d.1 :=
  lift Prod.fst (fun _ _ => Pass.follows) _ _ h

theorem Reaches.le (h : Reaches data a b) : a ≤ b := by
  induction h with
  | refl => exact Nat.le_refl _
  | tail _ hfollows ih =>
    obtain ⟨h, -, rfl⟩ := hfollows
    exact ih.trans (lt_itemEnd _ h).le

theorem containerEnd_ne_containerBegin : containerEnd ≠ containerBegin := by decide

theorem pass_rightUnique (data : Buffer) : Relator.RightUnique (Pass data) := by
  intro c d d' h h'
  cases h with
  | item hitem hbegin hend =>
    have hh := hitem.header
    cases h' with
    | item hitem' => rw [hh, hitem'.header]
    | enter hitem' hbegin' => exact absurd ((hh.trans hitem'.header.symm) ▸ hbegin') hbegin
    | leave hitem' hend' => exact absurd ((hh.trans hitem'.header.symm) ▸ hend') hend
  | enter hitem hbegin =>
    have hh := hitem.header
    cases h' with
    | item hitem' hbegin' => exact absurd ((hitem'.header.trans hh.symm) ▸ hbegin) hbegin'
    | enter hitem' => rw [hh, hitem'.header]
    | leave hitem' hend' =>
      rw [hitem'.header, ← hh, hbegin] at hend'
      exact absurd hend'.symm containerEnd_ne_containerBegin
  | leave hitem hend =>
    have hh := hitem.header
    cases h' with
    | item hitem' _ hend' => exact absurd ((hitem'.header.trans hh.symm) ▸ hend) hend'
    | enter hitem' hbegin' =>
      rw [hitem'.header, ← hh, hend] at hbegin'
      exact absurd hbegin' containerEnd_ne_containerBegin
    | leave hitem' => rw [hh, hitem'.header]

theorem Pass.under (more : List Nat) (h : Pass data c d) :
    Pass data (c.1, c.2 ++ more) (d.1, d.2 ++ more) := by
  cases h with
  | item hitem hbegin hend => exact .item hitem hbegin hend
  | enter hitem hbegin => exact .enter hitem hbegin
  | leave hitem hend hid => exact .leave hitem hend hid

theorem Passes.under (more : List Nat) (h : Passes data c d) :
    Passes data (c.1, c.2 ++ more) (d.1, d.2 ++ more) :=
  lift (fun c : Nat × List Nat => (c.1, c.2 ++ more))
    (fun _ _ => Pass.under more) _ _ h

theorem not_pass_of_end (hitem : ItemAt data stop h) (hend : h.type = containerEnd) :
    ¬Pass data (stop, []) c := by
  intro hpass
  cases hpass with
  | item hitem' _ hend' => exact hend' (hitem'.header.trans hitem.header.symm ▸ hend)
  | enter hitem' hbegin' =>
    rw [hitem'.header, ← hitem.header, hend] at hbegin'
    exact containerEnd_ne_containerBegin hbegin'

theorem passes_to_end (hitem : ItemAt data stop h) (hend : h.type = containerEnd)
    (hstop : Passes data c (stop, [])) (hpass : Passes data c d) :
    Passes data d (stop, []) := by
  rcases total_of_right_unique (pass_rightUnique data) hpass hstop with
    hto | hback
  · exact hto
  · rcases cases_head hback with heq | ⟨_, hstep, -⟩
    · exact heq ▸ .refl
    · exact absurd hstep (not_pass_of_end hitem hend)

def Closes (data : Buffer) : List Nat → Nat → Nat → Prop
  | [], start, stop => Balanced data start stop
  | id :: ids, start, stop => ∃ last h, Balanced data start last ∧ ItemAt data last h ∧
      h.type = containerEnd ∧ h.flags = id ∧ Closes data ids (itemEnd last h) stop

theorem Closes.before (hbefore : ∀ stop, Balanced data next stop → Balanced data start stop)
    (h : Closes data ids next stop) : Closes data ids start stop := by
  cases ids with
  | nil => exact hbefore _ h
  | cons id ids =>
    obtain ⟨last, h', hbalanced, hrest⟩ := h
    exact ⟨last, h', hbefore _ hbalanced, hrest⟩

theorem Passes.closes (h : Passes data c (stop, [])) : Closes data c.2 c.1 stop := by
  induction h using head_induction_on with
  | refl => exact .nil stop
  | head hpass _ ih =>
    cases hpass with
    | item hitem hbegin hend => exact ih.before fun _ => .item hitem hbegin hend
    | enter hitem hbegin =>
      obtain ⟨last, h', hbalanced, hitem', hend, hflags, hrest⟩ := ih
      exact hrest.before fun _ => .container hitem hbegin hbalanced hitem' hend hflags
    | leave hitem hend hid => exact ⟨_, _, .nil _, hitem, hend, hid, ih⟩

theorem findContainerEnd_sound
    (h : findContainerEnd data id fuel offset ids = .ok stop) :
    Passes data (offset, ids) (stop, []) ∧
      ∃ h, ItemAt data stop h ∧ h.type = containerEnd ∧ h.flags = id := by
  induction fuel generalizing offset ids with
  | zero => simp [findContainerEnd] at h
  | succ fuel ih =>
    rw [findContainerEnd] at h
    cases hpass : passItem data offset with
    | error e => simp [hpass, Thrown.lift, Except.mapError, bind, Except.bind] at h
    | ok result =>
      obtain ⟨hd, next⟩ := result
      obtain ⟨hitem, rfl⟩ := passItem_eq_ok.mp hpass
      simp only [hpass, Thrown.lift, Except.mapError, bind, Except.bind] at h
      by_cases hbegin : hd.type = containerBegin
      · rw [if_pos hbegin] at h
        exact ⟨.head (.enter hitem hbegin) (ih h).1, (ih h).2⟩
      rw [if_neg hbegin] at h
      by_cases hend : hd.type = containerEnd
      · rw [if_pos hend] at h
        cases ids with
        | nil =>
          by_cases hid : hd.flags = id
          · simp only [hid, ne_eq, not_true_eq_false, if_false, Except.ok.injEq] at h
            subst h
            exact ⟨.refl, hd, hitem, hend, hid⟩
          · simp [hid] at h
        | cons top ids =>
          by_cases htop : top = hd.flags
          · subst htop
            simp only [ne_eq, not_true_eq_false, if_false] at h
            exact ⟨.head (.leave hitem hend rfl) (ih h).1, (ih h).2⟩
          · simp [htop] at h
      · rw [if_neg hend] at h
        exact ⟨.head (.item hitem hbegin hend) (ih h).1, (ih h).2⟩

theorem findContainerEnd_ends (hfuel : data.size - offset < fuel) :
    findContainerEnd data id fuel offset ids ≠ .error .outOfFuel := by
  induction fuel generalizing offset ids with
  | zero => omega
  | succ fuel ih =>
    rw [findContainerEnd]
    cases hpass : passItem data offset with
    | error e => simp [Thrown.lift, Except.mapError, bind, Except.bind]
    | ok result =>
      obtain ⟨hd, next⟩ := result
      obtain ⟨hitem, rfl⟩ := passItem_eq_ok.mp hpass
      have hnext : data.size - itemEnd offset hd < fuel := by
        have := lt_itemEnd offset hd
        have := hitem.padding
        omega
      simp only [Thrown.lift, Except.mapError, bind, Except.bind]
      split
      · exact ih hnext
      split
      · cases ids with
        | nil => simp only; split <;> simp
        | cons top ids =>
          simp only
          split
          · simp
          · exact ih hnext
      · exact ih hnext

/-- What is asked of everything that happens. While a container is visited the reader does
not pass its end and reads items in it only, and after that it is behind the end. -/
structure Record.Sound (data : Buffer) (record : Record) : Prop where
  genuine : ∀ s ∈ record.scopes, s.Genuine data
  inside : ∀ s ∈ record.scopes, record.offset ≤ s.endItemOffset
  read : ∀ start h, record.event = .read start h → ItemAt data start h ∧
    ∀ s ∈ record.scopes, Reaches data s.bodyStart start ∧ start < s.endItemOffset
  left : ∀ s, record.event = .left s → s.Genuine data ∧
    ∃ h, ItemAt data s.endItemOffset h ∧ record.offset = itemEnd s.endItemOffset h

def Record.start? (record : Record) : Option Nat :=
  match record.event with
  | .read start _ => some start
  | _ => none

def starts (log : List Record) : List Nat := log.filterMap Record.start?

structure Logged (data : Buffer) (log : List Record) : Prop where
  sound : ∀ record ∈ log, record.Sound data
  ordered : (starts log).Pairwise (· < ·)

def Completed (log : List Record) (scopes : List Scope) : Prop :=
  ∀ before record after, log = before ++ record :: after → ∀ s ∈ record.scopes,
    s ∈ scopes ∨ ∃ record' ∈ after, record'.event = .left s

@[simp] theorem starts_snoc_read : starts (log ++ [⟨.read start h, scopes, offset⟩]) =
    starts log ++ [start] := by
  simp [starts, Record.start?]

theorem starts_snoc (h : record.start? = none) : starts (log ++ [record]) = starts log := by
  simp [starts, h]

theorem Logged.snoc (h : Logged data log) (hrecord : record.Sound data)
    (hordered : (starts (log ++ [record])).Pairwise (· < ·)) :
    Logged data (log ++ [record]) := by
  refine ⟨fun record' hmem => ?_, hordered⟩
  rcases List.mem_append.mp hmem with hold | hnew
  · exact h.sound record' hold
  · rw [List.mem_singleton.mp hnew]
    exact hrecord

theorem Completed.snoc (h : Completed log scopes)
    (hscopes : ∀ s ∈ scopes, s ∈ record.scopes ∨ record.event = .left s) :
    Completed (log ++ [record]) record.scopes := by
  intro before record' after hlog s hs
  rcases List.eq_nil_or_concat after with rfl | ⟨after, last, rfl⟩
  · rw [← List.concat_eq_append, ← List.concat_eq_append] at hlog
    rw [(List.concat_inj.mp hlog).2]
    exact .inl hs
  · have hsplit : (log ++ [record]) = (before ++ record' :: after) ++ [last] := by simp [hlog]
    obtain ⟨hinit, rfl⟩ := List.append_singleton_inj.mp hsplit
    rcases h before record' after hinit s hs with hmem | ⟨record'', hmem, hevent⟩
    · rcases hscopes s hmem with hmem | hevent
      · exact .inl hmem
      · exact .inr ⟨record, by simp, hevent⟩
    · exact .inr ⟨record'', by simp [hmem], hevent⟩

def Scope.Contains (data : Buffer) (s : Scope) (offset : Nat) : Prop :=
  ∃ ids, Passes data (s.bodyStart, []) (offset, ids) ∧
    Passes data (offset, ids) (s.endItemOffset, [])

variable {s : Scope}

theorem Scope.Contains.le (h : s.Contains data offset) : offset ≤ s.endItemOffset := by
  obtain ⟨ids, -, hto⟩ := h
  exact (Passes.reaches hto).le

theorem Scope.Contains.reaches (h : s.Contains data offset) :
    Reaches data s.bodyStart offset := by
  obtain ⟨ids, hfrom, -⟩ := h
  exact Passes.reaches hfrom

/-- Before the end there is an item, and the place behind it is in the container. -/
theorem Scope.Contains.next (h : s.Contains data offset) (hne : offset ≠ s.endItemOffset) :
    ∃ hd, ItemAt data offset hd ∧ s.Contains data (itemEnd offset hd) := by
  obtain ⟨ids, hfrom, hto⟩ := h
  rcases cases_head hto with heq | ⟨⟨next, ids'⟩, hpass, hrest⟩
  · exact absurd (congrArg Prod.fst heq) hne
  · obtain ⟨hd, hitem, hnext⟩ := hpass.follows
    subst hnext
    exact ⟨hd, hitem, ids', hfrom.tail hpass, hrest⟩

theorem Scope.Contains.over (h : s.Contains data start) (hs : s.Genuine data)
    (hitem : ItemAt data start hd) (hbegin : hd.type = containerBegin)
    (hfound : Passes data (itemEnd start hd, []) (stop, [])) (hitem' : ItemAt data stop hd')
    (hend : hd'.type = containerEnd) (hflags : hd'.flags = hd.flags) :
    s.Contains data (itemEnd stop hd') := by
  obtain ⟨ids, hfrom, hto⟩ := h
  obtain ⟨last, hlast, hlastEnd, -⟩ := hs.ends
  have hbody : Passes data (start, ids) (itemEnd stop hd', ids) :=
    ((single (.enter hitem hbegin)).trans
      (Passes.under (hd.flags :: ids) hfound)).tail (.leave hitem' hend hflags)
  exact ⟨ids, hfrom.trans hbody, passes_to_end hlast hlastEnd hto hbody⟩

end FridaCore.Fruity.Kcdata
