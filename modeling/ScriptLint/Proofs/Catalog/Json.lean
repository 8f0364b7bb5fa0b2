import ScriptLint.Catalog.Json
import ScriptLint.Proofs.Diagnostic.Json

/-!
Catalog documents are read back from JSON as they were written.
-/

namespace ScriptLint

open Json

namespace Declaration

/-- The position is 32 bits wide, as positions are. -/
def Fits (d : Declaration) : Prop := ∀ p ∈ d.position, p < 0x100000000

theorem ofJson?_toJson {d : Declaration} (h : d.Fits) : ofJson? d.toJson = some d := by
  have hrow : d.toJson = ofFields (row [("set", d.set.map .text), ("mandatory", some (.bool d.mandatory)),
      ("position", d.position.map .nat)]) := by
    simp [toJson, row, field?_some]
  have hnodup : ["set", "mandatory", "position"].Nodup := by decide
  rw [hrow, ofJson?]
  refine fields?_bind rfl hnodup ?_
  refine getOption?_bind hnodup rfl (fun _ => rfl) (fun _ _ => rfl) ?_
  refine getOr?_bind hnodup rfl rfl ?_
  exact getOption?_bind hnodup rfl (fun _ => rfl) (fun p hp => if_pos (h p hp)) rfl

end Declaration

namespace ParameterEntry

def Fits (p : ParameterEntry) : Prop := ∀ d ∈ p.declarations, d.Fits

theorem ofJson?_toJson {p : ParameterEntry} (h : p.Fits) : ofJson? p.toJson = some p := by
  have hrow : p.toJson = ofFields (row [("name", some (.text p.name)), ("switch", some (.bool p.isSwitch)),
      ("attributes", some (.arr (p.declarations.map Declaration.toJson)))]) := rfl
  have hnodup : ["name", "switch", "attributes"].Nodup := by decide
  have hdeclarations : (p.declarations.map Declaration.toJson).mapM Declaration.ofJson? =
      some p.declarations :=
    mapM_map_eq_some fun d hd => Declaration.ofJson?_toJson (h d hd)
  rw [hrow, ofJson?]
  refine fields?_bind rfl hnodup ?_
  refine get?_bind hnodup rfl rfl ?_
  refine getOr?_bind hnodup rfl rfl ?_
  exact getOr?_bind hnodup rfl hdeclarations rfl

end ParameterEntry

namespace CommandEntry

def Fits (c : CommandEntry) : Prop := ∀ p ∈ c.parameters, p.Fits

theorem ofJson?_toJson {c : CommandEntry} (h : c.Fits) : ofJson? c.toJson = some c := by
  have hrow : c.toJson = ofFields (row [("name", some (.text c.name)), ("kind", some (.text c.kind.key)),
      ("parameter_sets", some (.arr (c.parameterSets.map .text))),
      ("parameters", some (.arr (c.parameters.map ParameterEntry.toJson)))]) := rfl
  have hnodup : ["name", "kind", "parameter_sets", "parameters"].Nodup := by decide
  have hsets : (c.parameterSets.map Json.text).mapM text? = some c.parameterSets :=
    mapM_map_eq_some fun _ _ => rfl
  have hparameters : (c.parameters.map ParameterEntry.toJson).mapM ParameterEntry.ofJson? =
      some c.parameters :=
    mapM_map_eq_some fun p hp => ParameterEntry.ofJson?_toJson (h p hp)
  rw [hrow, ofJson?]
  refine fields?_bind rfl hnodup ?_
  refine get?_bind hnodup rfl rfl ?_
  refine get?_bind hnodup rfl c.kind.ofKey?_key ?_
  refine getOr?_bind hnodup rfl hsets ?_
  exact getOr?_bind hnodup rfl hparameters rfl

end CommandEntry

namespace Document

def Fits (d : Document) : Prop := ∀ c ∈ d.commands, c.Fits

theorem ofJson?_toJson {d : Document} (h : d.Fits) : ofJson? d.toJson = some d := by
  have hrow : d.toJson = ofFields (row [("schema_version", some (.text d.version)),
      ("commands", some (.arr (d.commands.map CommandEntry.toJson))), ("aliases", some d.aliases.toJson)]) :=
    rfl
  have hnodup : ["schema_version", "commands", "aliases"].Nodup := by decide
  have hcommands : (d.commands.map CommandEntry.toJson).mapM CommandEntry.ofJson? = some d.commands :=
    mapM_map_eq_some fun c hc => CommandEntry.ofJson?_toJson (h c hc)
  rw [hrow, ofJson?]
  refine fields?_bind rfl hnodup ?_
  refine get?_bind hnodup rfl rfl ?_
  refine getOr?_bind hnodup rfl hcommands ?_
  exact getOr?_bind hnodup rfl d.aliases.ofJson?_toJson rfl

end Document

end ScriptLint
