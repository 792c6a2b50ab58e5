import WattPlan.Fault

/-!
# Edits in place

An edit changes a draft where it stands, and may fail on the way. `perform` makes edits in turn and
goes on after those that fail, with the draft as they left it.
-/

namespace WattPlan

/-- A change of a draft that can fail. What was changed before a failure stays changed. -/
abbrev Edit (δ α β : Type) : Type :=
  ExceptT (ModelFault α) (StateM δ) β

namespace Edit

variable {δ α β σ : Type}

/-- The outcome of an edit and the draft after it. -/
def apply (edit : Edit δ α β) (draft : δ) : Except (ModelFault α) β × δ :=
  (edit.run.run draft).run

/-- Makes the edits that steps stand for in turn: the outcome of each one and the draft after all of
them. -/
def perform (edit : σ → Edit δ α β) (draft : δ) :
    List σ → List (Except (ModelFault α) β) × δ
  | [] => ([], draft)
  | step :: rest =>
      let (outcome, next) := (edit step).apply draft
      let (outcomes, last) := perform edit next rest
      (outcome :: outcomes, last)

end Edit

end WattPlan
