/-!
Settings of the two activities that have any.
-/

namespace StructuredOutput

/-- How schemas are written for a backend. -/
structure ProjectionSettings where
  /-- Whether recurring objects and unions are defined once and referred to. -/
  useDefinitions : Bool
  includeDescriptions : Bool
  deriving DecidableEq

/-- How streams are decoded. -/
structure StreamSettings where
  /-- Whether unfinished text is completed before it is decoded. -/
  repairPartial : Bool
  deriving DecidableEq

namespace ProjectionSettings

/-- Definitions and descriptions. -/
def standard : ProjectionSettings := ⟨true, true⟩

/-- Changes one setting by its name, if there is one of that name. -/
def change? (s : ProjectionSettings) (name : String) (value : Bool) :
    Option ProjectionSettings :=
  match name with
  | "use_definitions" => some { s with useDefinitions := value }
  | "include_descriptions" => some { s with includeDescriptions := value }
  | _ => none

end ProjectionSettings

namespace StreamSettings

/-- No repair. -/
def standard : StreamSettings := ⟨false⟩

/-- Changes one setting by its name, if there is one of that name. -/
def change? (s : StreamSettings) (name : String) (value : Bool) : Option StreamSettings :=
  match name with
  | "repair_partial_json" => some { s with repairPartial := value }
  | _ => none

end StreamSettings

/-- Applies changes in order; none if one of them names no setting. -/
def changeAll? {σ : Type} (change? : σ → String → Bool → Option σ) (s : σ)
    (changes : List (String × Bool)) : Option σ :=
  changes.foldlM (fun s c => change? s c.1 c.2) s

end StructuredOutput
