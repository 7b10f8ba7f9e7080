import PagedHeap.Checked
import PagedHeap.Error

/-!
# Actions

An action works on a state.  It ends with a result, is refused with an `Error`, or breaks off
with a fault, and leaves a state behind in every case: a request that came to nothing may well
have taken locks or moved pages, and others go on from there.
-/

namespace PagedHeap

abbrev Act (σ α : Type) := ExceptT Error (ExceptT Fault (StateM σ)) α

namespace Act

variable {σ τ α : Type}

def on (act : Act σ α) (s : σ) : Checked (Except Error α) × σ :=
  StateT.run (ExceptT.run (ExceptT.run act)) s

def of (f : σ → Checked (Except Error α) × σ) : Act σ α :=
  ExceptT.mk (ExceptT.mk f)

def ofResult : Except Error α → Act σ α
  | .ok a => pure a
  | .error e => throw e

/-- Performs an action on a part of the state. -/
def within (part : σ → τ) (put : σ → τ → σ) (act : Act τ α) : Act σ α :=
  of fun s =>
    let (result, t) := act.on (part s)
    (result, put s t)

/-- Reports the refusal of an action as its result. -/
def attempt (act : Act σ α) : Act σ (Except Error α) :=
  of fun s =>
    let (result, s) := act.on s
    (result.map .ok, s)

@[simp] theorem on_of (f : σ → Checked (Except Error α) × σ) (s : σ) : (of f).on s = f s := rfl

@[simp] theorem on_pure (a : α) (s : σ) : (pure a : Act σ α).on s = (.ok (.ok a), s) := rfl

@[simp] theorem on_throw (e : Error) (s : σ) :
    (throw e : Act σ α).on s = (.ok (.error e), s) := rfl

theorem on_within (part : σ → τ) (put : σ → τ → σ) (act : Act τ α) (s : σ) :
    (act.within part put).on s = ((act.on (part s)).1, put s (act.on (part s)).2) := rfl

end Act

end PagedHeap
