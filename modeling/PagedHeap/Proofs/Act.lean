import PagedHeap.Act

/-!
# How actions run

One equation for each way of building an action: what it answers on a state, and the state it
leaves.  And a property of actions that is checked along the way they are built: they leave some
part of the state alone, and what they answer is good.
-/

namespace PagedHeap.Act

variable {σ τ α β : Type}

theorem on_bind (act : Act σ α) (f : α → Act σ β) (s : σ) :
    (act >>= f).on s = match act.on s with
      | (.ok (.ok a), s) => (f a).on s
      | (.ok (.error e), s) => (.ok (.error e), s)
      | (.error fault, s) => (.error fault, s) := by
  simp only [on, bind, ExceptT.bind, ExceptT.run, ExceptT.mk, StateT.run, ExceptT.bindCont,
    StateT.bind]
  rcases act s with ⟨_ | _ | _, _⟩ <;> rfl

theorem on_map (f : α → β) (act : Act σ α) (s : σ) :
    (f <$> act).on s = ((act.on s).1.map fun result => result.map f, (act.on s).2) := by
  have h : f <$> act = act >>= fun a => pure (f a) := (bind_pure_comp f act).symm
  rw [h, on_bind]
  rcases act.on s with ⟨_ | _ | _, _⟩ <;> rfl

@[simp] theorem on_get (s : σ) : (get : Act σ σ).on s = (.ok (.ok s), s) := rfl

@[simp] theorem on_set (s t : σ) : (set t : Act σ PUnit).on s = (.ok (.ok ⟨⟩), t) := rfl

@[simp] theorem on_modify (f : σ → σ) (s : σ) :
    (modify f : Act σ PUnit).on s = (.ok (.ok ⟨⟩), f s) := rfl

theorem on_modify_bind (f : σ → σ) (k : PUnit → Act σ α) (s : σ) :
    ((modify f : Act σ PUnit) >>= k).on s = (k ()).on (f s) := by
  rw [on_bind, on_modify]

theorem on_checked (x : Checked α) (s : σ) :
    (liftM x : Act σ α).on s = (x.map .ok, s) := by
  cases x <;> rfl

@[simp] theorem on_ofResult (x : Except Error α) (s : σ) :
    (ofResult x : Act σ α).on s = (.ok x, s) := by
  cases x <;> rfl

@[simp] theorem on_attempt (act : Act σ α) (s : σ) :
    act.attempt.on s = ((act.on s).1.map .ok, (act.on s).2) := rfl

/-! ## What is left alone -/

/-- The action leaves a part of the state as it is, and what it answers is good. -/
def Keeps (part : σ → τ) (good : α → Prop) (act : Act σ α) : Prop :=
  ∀ s, part (act.on s).2 = part s ∧ ∀ a, (act.on s).1 = .ok (.ok a) → good a

namespace Keeps

variable {part : σ → τ} {good : α → Prop} {good' : β → Prop} {act : Act σ α} {k : α → Act σ β}

theorem of_pure {a : α} (h : good a) : Keeps part good (pure a : Act σ α) :=
  fun _ => ⟨rfl, fun a' ha => by
    obtain rfl := Except.ok.inj (Except.ok.inj ha)
    exact h⟩

theorem of_throw (e : Error) : Keeps part good (throw e : Act σ α) :=
  fun _ => ⟨rfl, fun _ ha => by cases ha⟩

theorem bind (h : Keeps part good act) (hk : ∀ a, good a → Keeps part good' (k a)) :
    Keeps part good' (act >>= k) := by
  intro s
  obtain ⟨hpart, hgood⟩ := h s
  rw [on_bind]
  generalize act.on s = x at hpart hgood ⊢
  rcases x with ⟨fault | e | a, s'⟩
  · exact ⟨hpart, fun _ ha => by cases ha⟩
  · exact ⟨hpart, fun _ ha => by cases ha⟩
  · obtain ⟨hpart', hgood'⟩ := hk a (hgood a rfl) s'
    exact ⟨hpart'.trans hpart, hgood'⟩

theorem after_get {k : σ → Act σ β} (h : ∀ s, Keeps part good' (k s)) :
    Keeps part good' (get >>= k) := by
  intro s
  rw [on_bind, on_get]
  exact h s s

theorem after_modify {g : σ → σ} {k : PUnit → Act σ β} (hg : ∀ s, part (g s) = part s)
    (h : Keeps part good' (k ⟨⟩)) : Keeps part good' (modify g >>= k) := by
  intro s
  rw [on_modify_bind]
  exact ⟨(h (g s)).1.trans (hg s), (h (g s)).2⟩

theorem after_ofResult {x : Except Error α} (h : ∀ a, Keeps part good' (k a)) :
    Keeps part good' (ofResult x >>= k) := by
  intro s
  rw [on_bind, on_ofResult]
  cases x with
  | error e => exact ⟨rfl, fun _ ha => by cases ha⟩
  | ok a => exact h a s

theorem after_checked {x : Checked α} (h : ∀ a, Keeps part good' (k a)) :
    Keeps part good' (liftM x >>= k) := by
  intro s
  rw [on_bind, on_checked]
  cases x with
  | error fault => exact ⟨rfl, fun _ ha => by cases ha⟩
  | ok a => exact h a s

end Keeps

/-! ## What is led to -/

/-- The action leads to a related state, and what it answers is good there. -/
def Leads (R : σ → σ → Prop) (good : α → σ → Prop) (s : σ) (act : Act σ α) : Prop :=
  R s (act.on s).2 ∧ ∀ a, (act.on s).1 = .ok (.ok a) → good a (act.on s).2

namespace Leads

variable {R : σ → σ → Prop} {good : α → σ → Prop} {good' : β → σ → Prop} {s : σ} {act : Act σ α}

theorem of_pure [Std.Refl R] {a : α} (h : good a s) : Leads R good s (pure a) :=
  ⟨Std.Refl.refl s, fun a' ha => by
    obtain rfl := Except.ok.inj (Except.ok.inj ha)
    exact h⟩

theorem of_throw [Std.Refl R] {e : Error} : Leads R good s (throw e) :=
  ⟨Std.Refl.refl s, fun _ ha => by cases ha⟩

theorem bind [Trans R R R] {k : α → Act σ β} (h : Leads R good s act)
    (hk : ∀ a s', R s s' → good a s' → Leads R good' s' (k a)) : Leads R good' s (act >>= k) := by
  obtain ⟨hrel, hgood⟩ := h
  rw [Leads, on_bind]
  generalize act.on s = x at hrel hgood ⊢
  rcases x with ⟨fault | e | a, s'⟩
  · exact ⟨hrel, fun _ ha => by cases ha⟩
  · exact ⟨hrel, fun _ ha => by cases ha⟩
  · obtain ⟨hrel', hgood'⟩ := hk a s' hrel (hgood a rfl)
    exact ⟨Trans.trans hrel hrel', hgood'⟩

theorem after_get {k : σ → Act σ β} (h : Leads R good' s (k s)) :
    Leads R good' s (get >>= k) := by
  rw [Leads, on_bind, on_get]
  exact h

theorem after_modify [Trans R R R] {g : σ → σ} {k : PUnit → Act σ β} (hg : R s (g s))
    (h : Leads R good' (g s) (k ⟨⟩)) : Leads R good' s (modify g >>= k) := by
  rw [Leads, on_modify_bind]
  exact ⟨Trans.trans hg h.1, h.2⟩

theorem after_ofResult [Std.Refl R] {x : Except Error α} {k : α → Act σ β}
    (h : ∀ a, x = .ok a → Leads R good' s (k a)) : Leads R good' s (ofResult x >>= k) := by
  rw [Leads, on_bind, on_ofResult]
  cases x with
  | error e => exact ⟨Std.Refl.refl s, fun _ ha => by cases ha⟩
  | ok a => exact h a rfl

theorem after_checked [Std.Refl R] {x : Checked α} {k : α → Act σ β}
    (h : ∀ a, Leads R good' s (k a)) : Leads R good' s (liftM x >>= k) := by
  rw [Leads, on_bind, on_checked]
  cases x with
  | error fault => exact ⟨Std.Refl.refl s, fun _ ha => by cases ha⟩
  | ok a => exact h a

end Leads

end PagedHeap.Act
