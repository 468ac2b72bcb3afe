import FridaCore.Fruity.KcdataScopes
import FridaCore.Support.Meets

/-!
# Visiting containers

Both cursors go over items in the same way, so the reader never passes the end that was
found for a container, whatever its visitors do.
-/

namespace FridaCore.Fruity.Kcdata

open List

variable {data : Buffer} {id : Nat} {s : Scope}

namespace Reader

variable {σ : Type} {w : World σ}

@[simp] theorem note_apply : note event w = .ok () { w with reader :=
    { w.reader with log := w.reader.log ++ [⟨event, w.reader.scopes, w.reader.offset⟩] } } := rfl

@[simp] theorem moveTo_apply :
    moveTo o w = .ok () { w with reader := { w.reader with offset := o } } := rfl

@[simp] theorem update_bind_apply :
    (update f >>= g) w = g () { w with reader := f w.reader } := rfl

@[simp] theorem moveTo_bind_apply :
    (moveTo o >>= g) w = g () { w with reader := { w.reader with offset := o } } := rfl

@[simp] theorem check_ok_bind : (check (.ok a) >>= g) w = g a w := rfl

@[simp] theorem check_error_bind :
    (check (.error e) >>= g) w = .error (.byReader e) w := rfl

theorem readHeader_eq_ok (hitem : ItemAt data w.reader.offset h)
    (hend : itemEnd w.reader.offset h ≤ w.reader.currentEndItemOffset) :
    readHeader data w = .ok h
      { w with reader := { w.reader with offset := w.reader.offset + headerSize } } := by
  have hroom := hitem.room
  have hheader : ¬data.size - w.reader.offset < headerSize := by omega
  have hsize : ¬h.size > min (data.size - (w.reader.offset + headerSize))
      (sizeDifference w.reader.currentEndItemOffset (w.reader.offset + headerSize)) := by
    have := (le_padded (w.reader.offset + headerSize + h.size)).trans hend
    rw [sizeDifference, if_pos (by omega)]
    omega
  simp only [readHeader, get_bind_apply, hheader, if_false, moveTo_bind_apply, ← hitem.header,
    hsize, pure_apply]

theorem readPayload_eq_ok (hroom : w.reader.offset + h.size ≤ data.size)
    (hpadding : padded (w.reader.offset + h.size) ≤ data.size) :
    readPayload data h w = .ok ((data.bytes.drop w.reader.offset).take h.size)
      { w with reader := { w.reader with offset := padded (w.reader.offset + h.size) } } := by
  simp only [readPayload, get_bind_apply, skip_eq_ok hroom, align_eq_ok hpadding, check_ok_bind,
    moveTo_bind_apply, pure_apply]

def passed (r : Reader) (h : ItemHeader) : Reader :=
  { r with
    offset := itemEnd r.offset h
    log := r.log ++ [⟨.read r.offset h, r.scopes, itemEnd r.offset h⟩] }

theorem readItem_eq_ok (hitem : ItemAt data w.reader.offset h)
    (hend : itemEnd w.reader.offset h ≤ w.reader.currentEndItemOffset) :
    ∃ payload, readItem data w = .ok (some (h, payload)) { w with reader := w.reader.passed h } := by
  have hlt := lt_itemEnd w.reader.offset h
  have hroom := hitem.room
  have havail : ¬(data.size - w.reader.offset = 0 ∨
      w.reader.offset = w.reader.currentEndItemOffset) := by
    simp only [headerSize] at hroom
    omega
  have hpayload := readPayload_eq_ok (h := h)
    (w := { w with reader := { w.reader with offset := w.reader.offset + headerSize } })
    hroom hitem.padding
  refine ⟨(data.bytes.drop (w.reader.offset + headerSize)).take h.size, ?_⟩
  rw [readItem, get_bind_apply, if_neg havail, bind_of_ok (readHeader_eq_ok hitem hend),
    bind_of_ok hpayload, bind_of_ok note_apply]
  rfl

/-- Outside of containers the reader may stop within an item that is cut off. -/
theorem readItem_eq_error (htop : w.reader.currentEndItemOffset = data.size)
    (hoffset : w.reader.offset < data.size)
    (hnone : ¬ItemAt data w.reader.offset (readItemHeaderFields data w.reader.offset)) :
    ∃ e o, w.reader.offset ≤ o ∧ o ≤ data.size ∧
      readItem data w = .error (.byReader e) { w with reader := { w.reader with offset := o } } := by
  have havail : ¬(data.size - w.reader.offset = 0 ∨
      w.reader.offset = w.reader.currentEndItemOffset) := by omega
  rw [readItem, get_bind_apply, if_neg havail]
  by_cases hheader : data.size - w.reader.offset < headerSize
  · refine ⟨needHeader w.reader.offset (data.size - w.reader.offset), w.reader.offset,
      Nat.le_refl _, hoffset.le, bind_of_error ?_⟩
    simp only [readHeader, get_bind_apply, hheader, if_true]
    rfl
  have hin : w.reader.offset + headerSize ≤ data.size := by
    omega
  have hdifference : sizeDifference w.reader.currentEndItemOffset
      (w.reader.offset + headerSize) = data.size - (w.reader.offset + headerSize) := by
    rw [sizeDifference, htop, if_pos hin]
  generalize hfields : readItemHeaderFields data w.reader.offset = h at hnone
  by_cases hsize : h.size > data.size - (w.reader.offset + headerSize)
  · refine ⟨itemTruncated w.reader.offset h (data.size - (w.reader.offset + headerSize)),
      w.reader.offset + headerSize, Nat.le_add_right _ _, hin, bind_of_error ?_⟩
    simp only [readHeader, get_bind_apply, hheader, if_false, moveTo_bind_apply, hfields,
      hdifference, Nat.min_self, hsize, if_true]
    rfl
  have hroom : w.reader.offset + headerSize + h.size ≤ data.size := by omega
  have hread : readHeader data w = .ok h
      { w with reader := { w.reader with offset := w.reader.offset + headerSize } } := by
    simp only [readHeader, get_bind_apply, hheader, if_false, moveTo_bind_apply, hfields,
      hdifference, Nat.min_self, hsize, pure_apply]
  -- The padding is what is missing.
  have hpadding : ¬padded (w.reader.offset + headerSize + h.size) ≤ data.size :=
    fun hpadding => hnone ⟨hfields.symm, data.size_eq ▸ hpadding⟩
  refine ⟨truncated, w.reader.offset + headerSize + h.size, by omega, hroom, ?_⟩
  rw [bind_of_ok hread]
  refine bind_of_error ?_
  simp [readPayload, get_bind_apply, skip_eq_ok hroom, align_eq hroom, hpadding, check_ok_bind,
    moveTo_bind_apply, check_error_bind]

theorem consumeContainerEndAt_eq_ok (hitem : ItemAt data stop h) (hend : h.type = containerEnd)
    (hid : h.flags = id) : consumeContainerEndAt data stop id w =
      .ok () { w with reader := { w.reader with offset := itemEnd stop h } } := by
  have hroom := hitem.room
  have hheader : ¬data.size - stop < headerSize := by omega
  have hsize : ¬h.size > data.size - (stop + headerSize) := by omega
  have hseek : seek data stop = .ok stop := by rw [seek, if_neg (by omega)]
  have hends : ¬(h.type ≠ containerEnd ∨ h.flags ≠ id) := by simp [hend, hid]
  by_cases hat : w.reader.offset = stop
  · simp only [consumeContainerEndAt, get_bind_apply, hat, ne_eq, not_true_eq_false, if_false,
      hheader, moveTo_bind_apply, ← hitem.header, hends, hsize, skip_eq_ok hroom, check_ok_bind,
      align_eq_ok hitem.padding, moveTo_apply, itemEnd]
  · simp only [consumeContainerEndAt, get_bind_apply, hat, ne_eq, not_false_eq_true, if_true,
      hseek, hheader, if_false, moveTo_bind_apply, ← hitem.header, hends, hsize, skip_eq_ok hroom,
      check_ok_bind, align_eq_ok hitem.padding, moveTo_apply, itemEnd]

theorem leaveContainer_eq_ok (hscopes : w.reader.scopes = s :: outer)
    (hitem : ItemAt data s.endItemOffset h) (hend : h.type = containerEnd)
    (hid : h.flags = s.endId) : leaveContainer data w =
      .ok () { w with reader := ⟨itemEnd s.endItemOffset h, outer, endOf data outer,
        w.reader.log ++ [⟨.left s, outer, itemEnd s.endItemOffset h⟩]⟩ } := by
  rw [leaveContainer, get_bind_apply]
  simp only [hscopes, update_bind_apply]
  rw [bind_of_ok (consumeContainerEndAt_eq_ok hitem hend hid), update_bind_apply, note_apply]

/-- The reader is in each of the containers that are visited, the inner ones end earlier,
and all that has been read is behind it. -/
structure Inv (data : Buffer) (r : Reader) : Prop where
  logged : Logged data r.log
  completed : Completed r.log r.scopes
  offset_le : r.offset ≤ data.size
  current : r.currentEndItemOffset = endOf data r.scopes
  genuine : ∀ s ∈ r.scopes, s.Genuine data
  contains : ∀ s ∈ r.scopes, s.Contains data r.offset
  nested : r.scopes.Pairwise fun s t => s.endItemOffset < t.endItemOffset
  behind : ∀ start ∈ starts r.log, start < r.offset

theorem inv_new (data : Buffer) : Inv data (.new data) := by
  refine ⟨⟨?_, ?_⟩, ?_, Nat.zero_le _, rfl, ?_, ?_, ?_, ?_⟩ <;>
    simp [Reader.new, starts, Completed]

variable {r r' : Reader}

section
variable (h : Inv data r) (hne : r.offset ≠ r.currentEndItemOffset)
include h hne

/-- Before the end of the innermost container the reader is before the other ends, too. -/
theorem Inv.ne_end : ∀ s ∈ r.scopes, r.offset ≠ s.endItemOffset := by
  intro s hs
  have hnested := h.nested
  have hcontains := h.contains
  rw [h.current] at hne
  cases hscopes : r.scopes with
  | nil => simp [hscopes] at hs
  | cons f outer =>
    rw [hscopes] at hs hne hnested hcontains
    have hlt : r.offset < f.endItemOffset :=
      Nat.lt_of_le_of_ne (hcontains f mem_cons_self).le hne
    rcases mem_cons.mp hs with rfl | hs
    · exact hlt.ne
    · exact (hlt.trans ((pairwise_cons.mp hnested).1 s hs)).ne

theorem Inv.contains_next (hitem : ItemAt data r.offset hd) :
    ∀ s ∈ r.scopes, s.Contains data (itemEnd r.offset hd) := by
  intro s hs
  obtain ⟨hd', hitem', hnext⟩ := (h.contains s hs).next (h.ne_end hne s hs)
  rwa [hitem.header, ← hitem'.header]

theorem Inv.passed (hitem : ItemAt data r.offset hd) : Inv data (r.passed hd) := by
  have hcontains := h.contains_next hne hitem
  have hordered : (starts (r.passed hd).log).Pairwise (· < ·) := by
    rw [Reader.passed, starts_snoc_read, pairwise_append]
    refine ⟨h.logged.ordered, pairwise_singleton _ _, fun start hstart offset hoffset => ?_⟩
    rw [mem_singleton.mp hoffset]
    exact h.behind start hstart
  refine ⟨h.logged.snoc ?_ hordered, h.completed.snoc fun s hs => .inl hs, hitem.padding,
    h.current, h.genuine, hcontains, h.nested, ?_⟩
  · refine ⟨h.genuine, fun s hs => (hcontains s hs).le, ?_, ?_⟩
    · rintro start h' ⟨⟩
      refine ⟨hitem, fun s hs => ⟨(h.contains s hs).reaches, ?_⟩⟩
      exact Nat.lt_of_le_of_ne (h.contains s hs).le (h.ne_end hne s hs)
    · rintro s ⟨⟩
  · intro start hstart
    rw [Reader.passed, starts_snoc_read] at hstart
    rcases mem_append.mp hstart with hold | hnew
    · exact (h.behind start hold).trans (lt_itemEnd _ _)
    · rw [mem_singleton.mp hnew]
      exact lt_itemEnd _ _

end

/-- What an operation leaves: the same containers are visited, and the reader has not gone
back. -/
structure Kept (data : Buffer) (r r' : Reader) : Prop where
  inv : Inv data r'
  scopes : r'.scopes = r.scopes
  le : r.offset ≤ r'.offset

theorem Inv.kept (h : Inv data r) : Kept data r r := ⟨h, rfl, Nat.le_refl _⟩

theorem Kept.trans (h : Kept data r r') (h' : Kept data r' r'') : Kept data r r'' :=
  ⟨h'.inv, h'.scopes.trans h.scopes, h.le.trans h'.le⟩

/-- What is left of a traversal that is over: a visitor has thrown an error, or there was
too little fuel. -/
structure Over (data : Buffer) (fuel : Nat) (t : Thrown) (r' : Reader) : Prop where
  inv : Inv data r'
  notCaught : ∀ e, t ≠ .byReader e
  fuel_le : t = .outOfFuel → fuel ≤ data.size

def Failed (data : Buffer) (fuel : Nat) (r : Reader) (t : Thrown) (r' : Reader) : Prop :=
  (∃ e, t = .byReader e) ∧ Kept data r r' ∨ Over data fuel t r'

theorem Failed.after (h : Kept data r r') (h' : Failed data fuel r' t r'') :
    Failed data fuel r t r'' := by
  rcases h' with ⟨he, hkept⟩ | hover
  · exact .inl ⟨he, h.trans hkept⟩
  · exact .inr hover

/-- What comes out of a part of a traversal that may fail. -/
def Traverses (data : Buffer) (fuel : Nat) (m : Action σ α) (w : World σ) : Prop :=
  Meets m w (fun _ w' => Kept data w.reader w'.reader)
    fun t w' => Failed data fuel w.reader t w'.reader

theorem Traverses.after {w' : World σ} (hkept : Kept data w.reader w'.reader)
    (h : Traverses data fuel m w') : Meets m w' (fun _ t => Kept data w.reader t.reader)
      fun t w' => Failed data fuel w.reader t w'.reader :=
  h.mono (fun _ _ hrest => hkept.trans hrest) fun _ _ ht => ht.after hkept

def Behaves (data : Buffer) (fuel : Nat) (m : Action σ α) : Prop :=
  ∀ w : World σ, Inv data w.reader →
    Meets m w (fun _ w' => Kept data w.reader w'.reader) (fun t w' => Over data fuel t w'.reader)

theorem readItem_meets (h : Inv data w.reader) :
    Meets (readItem data) w
      (fun item w' => (item = none ∧ w' = w) ∨ ∃ hd p, item = some (hd, p) ∧
        w.reader.offset ≠ w.reader.currentEndItemOffset ∧ ItemAt data w.reader.offset hd ∧
        w' = { w with reader := w.reader.passed hd })
      (fun t w' => Failed data fuel w.reader t w'.reader) := by
  by_cases hend : data.size - w.reader.offset = 0 ∨
      w.reader.offset = w.reader.currentEndItemOffset
  · refine meets_of_ok (a := none) (t := w) ?_ (.inl ⟨rfl, rfl⟩)
    rw [readItem, get_bind_apply, if_pos hend]
    rfl
  obtain ⟨havail, hne⟩ := not_or.mp hend
  by_cases hitem : ItemAt data w.reader.offset (readItemHeaderFields data w.reader.offset)
  · have hle : itemEnd w.reader.offset (readItemHeaderFields data w.reader.offset) ≤
        w.reader.currentEndItemOffset := by
      have hcontains := h.contains_next hne hitem
      rw [h.current]
      cases hscopes : w.reader.scopes with
      | nil => exact hitem.padding
      | cons f outer => exact (hcontains f (by simp [hscopes])).le
    obtain ⟨payload, hread⟩ := readItem_eq_ok hitem hle
    exact meets_of_ok hread (.inr ⟨_, payload, rfl, hne, hitem, rfl⟩)
  · -- In a container there is an item, so none is visited here.
    have hscopes : w.reader.scopes = [] := by
      by_contra hscopes
      obtain ⟨f, outer, hcons⟩ := exists_cons_of_ne_nil hscopes
      have hf : f ∈ w.reader.scopes := by simp [hcons]
      obtain ⟨hd, hitem', -⟩ := (h.contains f hf).next (h.ne_end hne f hf)
      exact hitem (hitem'.header ▸ hitem')
    have htop : w.reader.currentEndItemOffset = data.size := by rw [h.current, hscopes]; rfl
    obtain ⟨e, o, hle, ho, hread⟩ := readItem_eq_error htop (by omega) hitem
    refine meets_of_error hread (.inl ⟨⟨e, rfl⟩, ⟨h.logged, h.completed, ho, h.current, h.genuine,
      ?_, h.nested, ?_⟩, rfl, hle⟩)
    · simp [hscopes]
    · exact fun start hstart => (h.behind start hstart).trans_le hle

theorem findContainerEndFrom_meets (h : Inv data w.reader) :
    Meets (findContainerEndFrom data fuel w.reader.offset id) w
      (fun stop w' => w' = w ∧ Passes data (w.reader.offset, []) (stop, []) ∧
        ∃ h, ItemAt data stop h ∧ h.type = containerEnd ∧ h.flags = id)
      (fun t w' => Failed data fuel w.reader t w'.reader) := by
  have hseek : seek data w.reader.offset = .ok w.reader.offset := by
    rw [seek, if_neg (Nat.not_lt.mpr h.offset_le)]
  rw [Meets, findContainerEndFrom, hseek, check_ok_bind]
  cases hfind : findContainerEnd data id fuel w.reader.offset [] with
  | ok stop => exact ⟨rfl, findContainerEnd_sound hfind⟩
  | error t =>
    cases t with
    | byReader e => exact .inl ⟨⟨e, rfl⟩, h.kept⟩
    | byVisitor e => exact .inr ⟨h, by simp, by simp⟩
    | outOfFuel =>
      refine .inr ⟨h, by simp, fun _ => ?_⟩
      by_contra hfuel
      exact findContainerEnd_ends (by omega) hfind

theorem Inv.noted (h : Inv data r)
    (hcontains : ∀ s ∈ outer, s.Contains data o) (ho : o ≤ data.size) (hle : r.offset ≤ o)
    (hgenuine : ∀ s ∈ outer, s.Genuine data)
    (hnested : outer.Pairwise fun s t => s.endItemOffset < t.endItemOffset)
    (hscopes : ∀ s ∈ r.scopes, s ∈ outer ∨ event = .left s)
    (hread : Record.start? ⟨event, outer, o⟩ = none)
    (hleft : ∀ s, event = .left s → s.Genuine data ∧
      ∃ hd, ItemAt data s.endItemOffset hd ∧ o = itemEnd s.endItemOffset hd) :
    Inv data ⟨o, outer, endOf data outer, r.log ++ [⟨event, outer, o⟩]⟩ := by
  refine ⟨h.logged.snoc ⟨hgenuine, fun s hs => (hcontains s hs).le, ?_, hleft⟩ ?_,
    h.completed.snoc hscopes, ho, rfl, hgenuine, hcontains, hnested, ?_⟩
  · rintro start hd heq
    simp only at heq
    simp [Record.start?, heq] at hread
  · rw [starts_snoc hread]
    exact h.logged.ordered
  · rw [starts_snoc hread]
    exact fun start hstart => (h.behind start hstart).trans_le hle

/-- A container that has begun at the reader's last place, with the end that is found. -/
structure Found (data : Buffer) (r : Reader) (start : Nat) (hd : ItemHeader) (stop : Nat)
    (hd' : ItemHeader) : Prop where
  begins : ItemAt data start hd
  isBegin : hd.type = containerBegin
  body : r.offset = itemEnd start hd
  passes : Passes data (r.offset, []) (stop, [])
  ends : ItemAt data stop hd'
  isEnd : hd'.type = containerEnd
  flags : hd'.flags = hd.flags
  contains : ∀ s ∈ r.scopes, s.Contains data start

section
variable {hd hd' : ItemHeader}

theorem Found.contains_behind (h : Found data r start hd stop hd')
    (hgenuine : ∀ s ∈ r.scopes, s.Genuine data) :
    ∀ s ∈ r.scopes, s.Contains data (itemEnd stop hd') := fun s hs =>
  (h.contains s hs).over (hgenuine s hs) h.begins h.isBegin (h.body ▸ h.passes) h.ends h.isEnd
    h.flags

def Found.scope (_ : Found data r start hd stop hd') : Scope := ⟨stop, hd.flags, start, r.offset⟩

section
variable (h : Found data r start hd stop hd')
include h

theorem Found.genuine : h.scope.Genuine data where
  begins := ⟨hd, h.begins, h.isBegin, rfl, h.body⟩
  balanced := Passes.closes h.passes
  ends := ⟨hd', h.ends, h.isEnd, h.flags⟩

theorem Found.skipped (hr : Inv data r) :
    Kept data r ⟨itemEnd stop hd', r.scopes, endOf data r.scopes,
      r.log ++ [⟨.skipped, r.scopes, itemEnd stop hd'⟩]⟩ := by
  have hle : r.offset ≤ itemEnd stop hd' := (Passes.reaches h.passes).le.trans (lt_itemEnd _ _).le
  refine ⟨hr.noted (h.contains_behind hr.genuine) h.ends.padding hle hr.genuine hr.nested
    (fun s hs => .inl hs) rfl ?_, rfl, hle⟩
  rintro s ⟨⟩

theorem Found.entered (hr : Inv data r) :
    Inv data ⟨r.offset, h.scope :: r.scopes, endOf data (h.scope :: r.scopes),
      r.log ++ [⟨.entered h.scope, h.scope :: r.scopes, r.offset⟩]⟩ := by
  refine hr.noted ?_ hr.offset_le (Nat.le_refl _) ?_ ?_ (fun s hs => .inl (by simp [hs])) rfl ?_
  · exact forall_mem_cons.mpr ⟨⟨[], .refl, h.passes⟩, hr.contains⟩
  · exact forall_mem_cons.mpr ⟨h.genuine, hr.genuine⟩
  · refine pairwise_cons.mpr ⟨fun s hs => ?_, hr.nested⟩
    exact (lt_itemEnd stop hd').trans_le (h.contains_behind hr.genuine s hs).le
  · rintro s ⟨⟩

theorem Found.left (hr : Inv data r) (hr' : Inv data r')
    (hscopes : r'.scopes = h.scope :: r.scopes) (hle : r.offset ≤ r'.offset) :
    Kept data r ⟨itemEnd stop hd', r.scopes, endOf data r.scopes,
      r'.log ++ [⟨.left h.scope, r.scopes, itemEnd stop hd'⟩]⟩ := by
  have hin : r'.offset ≤ stop := (hr'.contains h.scope (by simp [hscopes])).le
  have hle' : r'.offset ≤ itemEnd stop hd' := hin.trans (lt_itemEnd _ _).le
  refine ⟨hr'.noted (h.contains_behind hr.genuine) h.ends.padding hle' hr.genuine hr.nested ?_ rfl
    ?_, rfl, hle.trans hle'⟩
  · rw [hscopes]
    exact forall_mem_cons.mpr ⟨.inr rfl, fun s hs => .inl hs⟩
  · rintro s ⟨⟩
    exact ⟨h.genuine, hd', h.ends, rfl⟩

end

section
variable (h : Inv data w.reader) (hne : w.reader.offset ≠ w.reader.currentEndItemOffset)
  (hitem : ItemAt data w.reader.offset hd)
include h hne hitem

theorem found_meets (hbegin : hd.type = containerBegin) :
    Meets (findContainerEndFrom data fuel (w.reader.passed hd).offset hd.flags)
      { w with reader := w.reader.passed hd }
      (fun stop w' => w' = { w with reader := w.reader.passed hd } ∧
        ∃ hd', Found data (w.reader.passed hd) w.reader.offset hd stop hd')
      (fun t w' => Failed data fuel (w.reader.passed hd) t w'.reader) := by
  refine (findContainerEndFrom_meets (w := { w with reader := w.reader.passed hd })
    (h.passed hne hitem)).mono ?_ fun _ _ ht => ht
  rintro stop w' ⟨rfl, hpasses, hd', hitem', hend, hflags⟩
  exact ⟨rfl, hd', hitem, hbegin, rfl, hpasses, hitem', hend, hflags, h.contains⟩

theorem skipContainerBody_meets (hbegin : hd.type = containerBegin) :
    Traverses data fuel (skipContainerBody data fuel hd.flags)
      { w with reader := w.reader.passed hd } := by
  have hpassed := h.passed hne hitem
  refine .of_eq get_bind_apply (.bind ?_)
  refine (found_meets h hne hitem hbegin).mono ?_ fun _ _ ht => ht
  rintro stop w' ⟨rfl, hd', hfound⟩
  have hconsume := consumeContainerEndAt_eq_ok (w := { w with reader := w.reader.passed hd })
    hfound.ends hfound.isEnd hfound.flags
  refine meets_of_ok ((bind_of_ok hconsume).trans note_apply) ?_
  have hskipped := hfound.skipped hpassed
  rw [← hpassed.current] at hskipped
  exact hskipped

end

theorem visitContainer_meets (hvisitor : Behaves data fuel visitor)
    (h : Inv data w.reader) (hne : w.reader.offset ≠ w.reader.currentEndItemOffset)
    (hitem : ItemAt data w.reader.offset hd) (hbegin : hd.type = containerBegin) (p : Bytes) :
    Traverses data fuel (visitContainer data fuel want w.reader.offset visitor hd p)
      { w with reader := w.reader.passed hd } := by
  have hpassed := h.passed hne hitem
  cases htype : containerType p with
  | error e =>
    rw [visitContainer, htype]
    exact meets_of_error check_error_bind (.inl ⟨⟨e, rfl⟩, hpassed.kept⟩)
  | ok ctype =>
    rw [visitContainer, htype]
    refine .of_eq check_ok_bind ?_
    by_cases hwant : ctype ≠ want
    · rw [if_pos hwant]
      exact .bind (skipContainerBody_meets h hne hitem hbegin)
    · rw [if_neg hwant]
      refine .bind (.of_eq get_bind_apply (.bind ?_))
      refine (found_meets h hne hitem hbegin).mono ?_ fun _ _ ht => ht
      rintro stop w' ⟨rfl, hd', hfound⟩
      refine meets_of_ok (update_bind_apply.trans note_apply) (.bind ?_)
      refine (hvisitor _ (hfound.entered hpassed)).mono ?_ fun _ _ hover => .inr hover
      intro result w' hkept
      have hleave := leaveContainer_eq_ok hkept.scopes hfound.ends hfound.isEnd hfound.flags
      refine meets_of_ok ((bind_of_ok hleave).trans pure_apply) ?_
      exact hfound.left hpassed hkept.inv hkept.scopes hkept.le

end

theorem Kept.lessTurns (h : Kept data (w.reader.passed hd) r')
    (hitem : ItemAt data w.reader.offset hd)
    (hturns : turns + 1 ≤ data.size - w.reader.offset → fuel ≤ data.size) :
    turns ≤ data.size - r'.offset → fuel ≤ data.size := by
  have hlt := lt_itemEnd w.reader.offset hd
  have hle : itemEnd w.reader.offset hd ≤ r'.offset := h.le
  have hpadding := hitem.padding
  intro hmore
  exact hturns (by omega)

theorem Inv.kept_passed (h : Inv data r) (hne : r.offset ≠ r.currentEndItemOffset)
    (hitem : ItemAt data r.offset hd) : Kept data r (r.passed hd) :=
  ⟨h.passed hne hitem, rfl, (lt_itemEnd _ _).le⟩

theorem forEach_meets (turns : Nat) (hvisitor : ∀ h p, Behaves data fuel (visitor h p))
    (hturns : turns ≤ data.size - w.reader.offset → fuel ≤ data.size) (h : Inv data w.reader) :
    Traverses data fuel (forEach data visitor turns) w := by
  induction turns generalizing w with
  | zero => exact meets_of_error rfl (.inr ⟨h, by simp, fun _ => hturns (Nat.zero_le _)⟩)
  | succ turns ih =>
    refine .bind ((readItem_meets h).mono ?_ fun _ _ ht => ht)
    rintro item w' (⟨rfl, rfl⟩ | ⟨hd, p, rfl, hne, hitem, rfl⟩)
    · exact h.kept
    have hpassed := h.kept_passed hne hitem
    refine .bind ((hvisitor hd p _ hpassed.inv).mono ?_ fun _ _ hover => .inr hover)
    intro result w' hkept
    by_cases hstop : result = .stop
    · rw [if_pos hstop]
      exact hpassed.trans hkept
    · rw [if_neg hstop]
      exact (ih (hkept.lessTurns hitem hturns) hkept.inv).after (hpassed.trans hkept)

theorem forEachContainer_meets (want turns : Nat) (hvisitor : Behaves data fuel visitor)
    (hturns : turns ≤ data.size - w.reader.offset → fuel ≤ data.size) (h : Inv data w.reader) :
    Traverses data fuel (forEachContainer data fuel want visitor turns) w := by
  induction turns generalizing w with
  | zero => exact meets_of_error rfl (.inr ⟨h, by simp, fun _ => hturns (Nat.zero_le _)⟩)
  | succ turns ih =>
    refine .of_eq get_bind_apply (.bind ((readItem_meets h).mono ?_ fun _ _ ht => ht))
    rintro item w' (⟨rfl, rfl⟩ | ⟨hd, p, rfl, hne, hitem, rfl⟩)
    · exact h.kept
    have hpassed := h.kept_passed hne hitem
    by_cases hbegin : hd.type = containerBegin
    · simp only [ne_eq, hbegin, not_true_eq_false, if_false]
      refine .bind ((visitContainer_meets hvisitor h hne hitem hbegin p).mono ?_
        fun _ _ ht => ht.after hpassed)
      intro result w' hkept
      by_cases hstop : result = .stop
      · rw [if_pos hstop]
        exact hpassed.trans hkept
      · rw [if_neg hstop]
        exact (ih (hkept.lessTurns hitem hturns) hkept.inv).after (hpassed.trans hkept)
    · simp only [ne_eq, hbegin, not_false_eq_true, if_true]
      exact (ih (hpassed.inv.kept.lessTurns hitem hturns) hpassed.inv).after hpassed

end Reader

namespace Visit

open Reader

variable {σ : Type}

theorem attempt_meets {w : World σ} (h : Traverses data fuel m w) :
    Meets (attempt m) w (fun _ w' => Kept data w.reader w'.reader)
      (fun t w' => Over data fuel t w'.reader) := by
  unfold Traverses Meets at h
  split at h
  · next hm => exact meets_of_ok (by rw [attempt, hm]) h
  · next t w' hm =>
    rcases h with ⟨⟨e, rfl⟩, hkept⟩ | hover
    · have hcaught : attempt m w = .ok (.error e) { w' with reader := { w'.reader with
          log := w'.reader.log ++ [⟨.threw e, w'.reader.scopes, w'.reader.offset⟩] } } := by
        simp only [attempt, hm]
        rfl
      refine meets_of_ok hcaught ?_
      have hnoted : Inv data ⟨w'.reader.offset, w'.reader.scopes, endOf data w'.reader.scopes,
          w'.reader.log ++ [⟨.threw e, w'.reader.scopes, w'.reader.offset⟩]⟩ :=
        hkept.inv.noted hkept.inv.contains hkept.inv.offset_le (Nat.le_refl _) hkept.inv.genuine
          hkept.inv.nested (fun s hs => .inl hs) rfl (by simp)
      rw [← hkept.inv.current] at hnoted
      exact ⟨hnoted, hkept.scopes, hkept.le⟩
    · refine meets_of_error ?_ hover
      cases t with
      | byReader e => exact absurd rfl (hover.notCaught e)
      | byVisitor e | outOfFuel => rw [attempt, hm]

theorem behaves_run (data : Buffer) (fuel : Nat) (visit : Visit σ) :
    Behaves data fuel (visit.run data fuel) := by
  induction visit with
  | done result captured => exact fun w h => h.kept
  | letPass e => exact fun w h => ⟨h, by simp, by simp⟩
  | forEach captured visitor next ihVisitor ihNext =>
    intro w h
    have hvisitor : ∀ hd p, Behaves data fuel
        fun w : World σ => (visitor hd p w.captured).run data fuel w :=
      fun hd p w hw => ihVisitor hd p w.captured w hw
    have hloop := forEach_meets (w := { w with captured }) fuel hvisitor (fun hle => by omega) h
    refine .of_eq modify_bind_apply (.bind ((attempt_meets hloop).mono ?_ fun _ _ hover => hover))
    intro outcome w' hkept
    exact (ihNext outcome w'.captured w' hkept.inv).mono (fun _ _ hrest => hkept.trans hrest)
      fun _ _ hover => hover
  | forEachContainer captured want visitor next ihVisitor ihNext =>
    intro w h
    have hvisitor : Behaves data fuel fun w : World σ => (visitor w.captured).run data fuel w :=
      fun w hw => ihVisitor w.captured w hw
    have hloop := forEachContainer_meets (w := { w with captured }) want fuel hvisitor
      (fun hle => by omega) h
    refine .of_eq modify_bind_apply (.bind ((attempt_meets hloop).mono ?_ fun _ _ hover => hover))
    intro outcome w' hkept
    exact (ihNext outcome w'.captured w' hkept.inv).mono (fun _ _ hrest => hkept.trans hrest)
      fun _ _ hover => hover

/-- Whatever its visitors do, a traversal ends and reads each container from its beginning
to the matching end. Unless a visitor throws, each one is left behind its end. -/
theorem run_traversed (data : Buffer) (visit : Visit σ) (captured : σ) :
    ∃ enough, ∀ fuel ≥ enough, Meets (visit.run data fuel) ⟨.new data, captured⟩
      (fun _ w => Logged data w.reader.log ∧ Completed w.reader.log [])
      (fun t w => Logged data w.reader.log ∧ Completed w.reader.log w.reader.scopes ∧
        ∃ e, t = .byVisitor e) := by
  refine ⟨data.size + 1, fun fuel hfuel => ?_⟩
  refine (behaves_run data fuel visit ⟨.new data, captured⟩ (inv_new data)).mono ?_ ?_
  · intro result w hkept
    have hcompleted := hkept.inv.completed
    rw [hkept.scopes] at hcompleted
    exact ⟨hkept.inv.logged, hcompleted⟩
  · intro t w hover
    refine ⟨hover.inv.logged, hover.inv.completed, ?_⟩
    cases t with
    | byReader e => exact absurd rfl (hover.notCaught e)
    | byVisitor e => exact ⟨e, rfl⟩
    | outOfFuel => exact absurd (hover.fuel_le rfl) (by omega)

end Visit

end FridaCore.Fruity.Kcdata
