import FridaCore.Fruity.PlistParser

/-!
# Fuel

More fuel does not change what a parse comes to, unless it ran out. A computation
refines another one if it does the same wherever the other one comes to something; the
parts of the parser that are given a reader for the values further down pass that on.
-/

namespace FridaCore.Fruity

def Stop.fatal : Stop → Bool
  | .aborted | .outOfFuel => true
  | _ => false

namespace BinaryParser

variable {α β : Type} {pos : Nat}

def Out (x : Except Stop α) : Prop := ∃ e, x = .error e ∧ e.fatal = true

@[simp] theorem ok_bind (a : α) (f : α → Except Stop β) : (Except.ok a >>= f) = f a := rfl

@[simp] theorem error_bind (e : Stop) (f : α → Except Stop β) :
    (Except.error e >>= f) = Except.error e := rfl

theorem bind_apply (x : Reading α) (f : α → Reading β) (pos : Nat) :
    (x >>= f) pos = x pos >>= fun r => f r.1 r.2 := rfl

theorem not_out_ok (a : α) : ¬Out (.ok a : Except Stop α) := by
  rintro ⟨e, he, -⟩
  cases he

theorem out_error : Out (.error e : Except Stop α) ↔ e.fatal = true := by
  simp [Out]

theorem not_out_io (message : String) : ¬Out (.error (.io message) : Except Stop α) := by
  simp [out_error, Stop.fatal]

theorem not_out_invalidData (message : String) : ¬Out (invalidData message : Except Stop α) := by
  simp [invalidData, out_error, Stop.fatal]

theorem out_bind :
    Out (x >>= f) ↔ Out x ∨ ∃ a, x = .ok a ∧ Out (f a) := by
  cases x with
  | ok a => simp [not_out_ok]
  | error e => simp [out_error]

def Direct (x : Reading α) : Prop := ∀ pos, ¬Out (x pos)

theorem Direct.pure (a : α) : Direct (pure a) := fun _ => not_out_ok _

theorem Direct.bind (hx : Direct x) (hf : ∀ a, Direct (f a)) : Direct (x >>= f) := by
  intro pos h
  rw [bind_apply, out_bind] at h
  rcases h with h | ⟨r, -, h⟩
  · exact hx pos h
  · exact hf r.1 r.2 h

theorem direct_readUint (data : List UInt8) (size : Nat) : Direct (readUint data size) := by
  intro pos
  unfold readUint
  dsimp only
  split
  · exact not_out_ok _
  · exact not_out_io _

theorem direct_invalidData (message : String) :
    Direct (invalidData message : Except Stop α) := fun _ => by
  simp [liftM, monadLift, MonadLift.monadLift, StateT.lift, invalidData]
  exact not_out_invalidData message

theorem direct_readUintOfSize (data : List UInt8) (size : Nat) :
    Direct (readUintOfSize data size) := by
  unfold readUintOfSize
  split
  · exact direct_readUint data size
  · exact direct_invalidData _

theorem direct_readAll (data : List UInt8) (size : Nat) : Direct (readAll data size) :=
  fun _ => not_out_ok _

theorem direct_checkObjectSize (size : Nat) :
    Direct (checkObjectSize size : Except Stop Unit) := by
  unfold checkObjectSize
  split
  · exact direct_invalidData _
  · exact fun _ => not_out_ok _

theorem direct_lengthOf (v : Tree) : Direct (lengthOf v : Except Stop Nat) := by
  unfold lengthOf
  split
  · split
    · exact direct_invalidData _
    · exact fun _ => not_out_ok _
  · exact direct_invalidData _

theorem direct_readConstant (info : Nat) : Direct (readConstant info) := by
  unfold readConstant
  split
  · exact .pure _
  · exact .pure _
  · exact .pure _
  · exact direct_invalidData _

section
variable (data : List UInt8)
include data

theorem direct_readInteger (info : Nat) : Direct (readInteger data info) := by
  unfold readInteger
  split
  · exact direct_invalidData _
  · split
    iterate 4 exact .bind (direct_readUint _ _) fun _ => .pure _
    exact direct_invalidData _

theorem direct_readReal (info : Nat) : Direct (readReal data info) := by
  unfold readReal
  split
  · exact .bind (direct_readUint _ _) fun _ => .pure _
  · exact .bind (direct_readUint _ _) fun _ => .pure _
  · exact direct_invalidData _

theorem direct_readData (length : Nat) : Direct (readData data length) :=
  .bind (direct_checkObjectSize _) fun _ => .bind (direct_readAll _ _) fun _ => .pure _

theorem direct_readAsciiString (length : Nat) : Direct (readAsciiString data length) :=
  .bind (direct_checkObjectSize _) fun _ => .bind (direct_readAll _ _) fun _ => .pure _

theorem direct_readUtf16String [GLib] (length : Nat) : Direct (readUtf16String data length) := by
  refine .bind (direct_checkObjectSize _) fun _ => .bind (direct_readAll _ _) fun bytes => ?_
  dsimp only
  split
  · exact .pure _
  · exact fun _ => not_out_io _

theorem not_out_seekToObject (t : Trailer) (ref : Nat) : ¬Out (seekToObject data t ref) := by
  have hseek : ∀ pos, ¬Out (seek data pos) := by
    intro pos
    unfold seek
    split
    · exact not_out_ok _
    · exact not_out_io _
  intro h
  rw [seekToObject, out_bind] at h
  rcases h with h | ⟨pos, -, h⟩
  · exact hseek _ h
  · rw [out_bind] at h
    rcases h with h | ⟨r, -, h⟩
    · exact direct_readUintOfSize _ _ _ h
    · exact hseek _ h

end

def Refines (x y : Reading α) : Prop := ∀ pos, ¬Out (x pos) → y pos = x pos

theorem Refines.refl (x : Reading α) : Refines x x := fun _ _ => rfl

theorem Refines.bind (h : Refines x y)
    (hf : ∀ a, Refines (f a) (g a)) : Refines (x >>= f) (y >>= g) := by
  intro pos hfin
  rw [bind_apply, out_bind, not_or, not_exists] at hfin
  rw [bind_apply, bind_apply, h pos hfin.1]
  cases hx : x pos with
  | error e => rfl
  | ok r => exact hf r.1 r.2 fun hout => hfin.2 r ⟨hx, hout⟩

section
variable {data : List UInt8} {t : Trailer} {x y : Reading Tree} (h : Refines x y)
include h

theorem refines_readLength : Refines (readLength x) (readLength y) :=
  .bind h fun _ => .refl _

theorem refines_lengthFor (info : Nat) : Refines (lengthFor x info) (lengthFor y info) := by
  unfold lengthFor
  split
  · exact refines_readLength h
  · exact .refl _

theorem refines_parseObject (ref : Nat) :
    Refines (parseObject data t x ref) (parseObject data t y ref) := by
  intro pos hfin
  unfold parseObject at hfin ⊢
  cases hs : seekToObject data t ref with
  | error e => rfl
  | ok start =>
    rw [hs, ok_bind, out_bind, not_or] at hfin
    rw [ok_bind, ok_bind, h start hfin.1]

theorem refines_readElements (refs : List Nat) :
    Refines (readElements data t x refs) (readElements data t y refs) := by
  induction refs with
  | nil => exact .refl _
  | cons ref rest ih => exact .bind (refines_parseObject h ref) fun _ => .bind ih fun _ => .refl _

theorem refines_readEntries (refs : List (Nat × Nat)) (dict : List (Str × Tree)) :
    Refines (readEntries data t x refs dict) (readEntries data t y refs dict) := by
  induction refs generalizing dict with
  | nil => exact .refl _
  | cons pair rest ih =>
    refine .bind (refines_parseObject h pair.1) fun key =>
      .bind (refines_parseObject h pair.2) fun val => ?_
    split
    · exact ih _
    · exact .refl _

theorem refines_readArray [GLib] (length : Nat) :
    Refines (readArray data t x length) (readArray data t y length) :=
  .bind (.refl _) fun _ => .bind (.refl _) fun _ => .bind (.refl _) fun refs =>
    .bind (refines_readElements h refs) fun _ => .refl _

theorem refines_readDict [GLib] (length : Nat) :
    Refines (readDict data t x length) (readDict data t y length) :=
  .bind (.refl _) fun _ => .bind (.refl _) fun _ => .bind (.refl _) fun _ => .bind (.refl _) fun _ =>
    .bind (refines_readEntries h _ _) fun _ => .refl _

theorem refines_readBody [GLib] (objectType info : Nat) :
    Refines (readBody data t x objectType info) (readBody data t y objectType info) := by
  unfold readBody
  split
  iterate 4 exact .refl _
  iterate 3 exact .bind (refines_lengthFor h info) fun _ => .refl _
  · exact .refl _
  · exact .bind (refines_lengthFor h info) (refines_readArray h)
  · exact .bind (refines_lengthFor h info) (refines_readDict h)
  · exact .refl _

end

theorem readValue_refines [GLib] (data : List UInt8) (t : Trailer) (h : m ≤ n) :
    Refines (readValue data t m) (readValue data t n) := by
  induction m generalizing n with
  | zero => exact fun pos hfin => absurd (out_error.mpr rfl) hfin
  | succ m ih =>
    obtain ⟨n, rfl⟩ := Nat.exists_eq_add_of_le' (Nat.le_trans (Nat.le_add_left 1 m) h)
    exact .bind (.refl _) fun marker => refines_readBody (ih (by omega)) _ _

end BinaryParser

end FridaCore.Fruity
