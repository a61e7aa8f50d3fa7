/-!
What the library reports about its work.
-/

namespace StructuredOutput

/-- A report. `target` is the type that a stream is decoded to. -/
inductive Notice where
  | schemaDerived (type kind : String)
  | schemaRenamed (name renamed : String)
  | schemaProjected (backend root : String) (named : Nat)
  | streamStateChanged (target before after : String)
  | streamEventIgnored (target state kind : String)
  | fragmentSkipped (target : String) (length : Nat) (error : String)
  | fragmentUnmatched (target kind : String)
  deriving DecidableEq

end StructuredOutput
