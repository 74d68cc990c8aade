import LogicCircuit.Analysis
import LogicCircuit.Netlist.Writer
import LogicCircuit.Proofs.Analysis.DepthTable
import LogicCircuit.Proofs.Circuit.Likeness
import LogicCircuit.Proofs.Extraction.Reading

/-!
# The analysis of circuits that are alike

The expressions of the components, the depth, the warnings, the suggestions and the netlist of a
circuit depend on its components and their drivers alone, so they are the same for circuits that
are alike. Where a search keeps what it is inside of, or a table of what it knows, it is compared
through what it is known to find: the expression that a component computes, the table of depths.
-/

namespace LogicCircuit

namespace Circuit

variable {c d : Circuit} {id : ComponentId} {x : Component} {e : Expr}

/-! ## Slots and drivers -/

/-- A component has an empty slot exactly if one of its slots has no driver. -/
theorem WellWired.any_isNone_slots (h : c.WellWired) (hx : c.component? id = some x) :
    x.slots.any (·.isNone) = (c.driversOf id).any (·.isNone) := by
  have hnone : ∀ {α : Type} (slots : List (Option α)),
      slots.any (·.isNone) = true ↔ none ∈ slots :=
    fun slots => by simp
  rw [Bool.eq_iff_iff, hnone, hnone, h.none_mem_driversOf_iff hx]

/-- The first slot of a component is empty exactly if it has no driver. -/
theorem WellWired.isNone_first_slot (h : c.WellWired) (hx : c.component? id = some x) :
    (x.slots.head?.bind fun slot => slot).isNone =
      ((c.driversOf id).head?.bind fun driver => driver).isNone := by
  rw [driversOf_of_component? hx, List.head?_map]
  cases hslot : x.slots.head? with
  | none => rfl
  | some slot =>
      cases slot with
      | none => rfl
      | some k =>
          obtain ⟨w, hw, -⟩ := h.slot hx (List.head?_eq_getElem?.symm.trans hslot)
          simp [driver?, hw]

namespace Alike

/-! ## Expressions -/

/-- What a component computes is read off the kinds, the labels and the drivers. -/
theorem readsAs (h : c.Alike d) (he : c.ReadsAs id e) : d.ReadsAs id e := by
  induction he with
  | source hx hk =>
      obtain ⟨y, hy, hyx⟩ := h.exists_component hx
      obtain ⟨-, hkind, -, hlabel, -⟩ := Component.eq_of_standing hyx
      exact hlabel ▸ .source hy (hkind.trans hk)
  | inverter hx hk hdrivers _ ih =>
      obtain ⟨y, hy, hyx⟩ := h.exists_component hx
      exact .inverter hy ((Component.eq_of_standing hyx).2.1.trans hk)
        ((h.drivers _).trans hdrivers) ih
  | operator hx hk hdrivers _ _ iha ihb =>
      obtain ⟨y, hy, hyx⟩ := h.exists_component hx
      exact .operator hy ((Component.eq_of_standing hyx).2.1.trans hk)
        ((h.drivers _).trans hdrivers) iha ihb

/-! ## Remarks and signals -/

/-- Inverters on inverters and gates on one component twice are in the same places. -/
theorem suggestions_eq (h : c.Alike d) : d.suggestions = c.suggestions := by
  have hone : d.suggestion? = c.suggestion? := by
    funext id g drivers
    unfold suggestion?
    simp only [h.bind (·.kind.gate?) fun _ => rfl]
  have hread : ∀ c : Circuit, c.suggestions = ((c.gates.map fun x => (x.id, x.kind)).filterMap
      fun (id, kind) => kind.gate?.bind fun g => c.suggestion? id g (c.driversOf id)) := by
    intro c
    rw [suggestions, List.filterMap_map]
    rfl
  have hgates : d.gates.map (fun x => (x.id, x.kind)) = c.gates.map fun x => (x.id, x.kind) :=
    h.map_filter _ _ (fun _ => rfl) fun _ => rfl
  rw [hread, hread, hgates, hone, h.driversOf_eq]

/-- Drivers have the same signals. -/
theorem driverSignal_eq (h : c.Alike d) : Netlist.driverSignal d = Netlist.driverSignal c := by
  funext driver
  have hread : ∀ c : Circuit, Netlist.driverSignal c driver = (driver.bind fun id =>
      (c.component? id).bind fun x => some (Netlist.signalOf x)).getD "gnd" := fun c => by
    rw [Netlist.driverSignal]
    cases driver with
    | none => rfl
    | some id =>
        rw [Option.bind_some, Option.bind_some]
        cases c.component? id <;> rfl
  rw [hread, hread]
  simp only [h.bind (fun x => some (Netlist.signalOf x)) fun _ => rfl]

section Wired

variable (hc : c.WellWired) (hd : d.WellWired)
include hc hd

theorem nodeExpr?_eq (h : c.Alike d) (id : ComponentId) :
    d.nodeExpr? [] id = c.nodeExpr? [] id := by
  ext e
  rw [hd.nodeExpr?_eq_some_iff, hc.nodeExpr?_eq_some_iff]
  exact ⟨h.symm.readsAs, h.readsAs⟩

/-- Every component has the same expression, or has none in both. -/
theorem expr?_eq (h : c.Alike d) (id : ComponentId) : d.expr? id = c.expr? id := by
  unfold expr?
  cases hx : c.component? id with
  | none => rw [h.component?_eq_none hx]
  | some x =>
      obtain ⟨y, hy, hyx⟩ := h.exists_component hx
      have hkind : y.kind = x.kind := (Component.eq_of_standing hyx).2.1
      simp only [hy, hkind, h.drivers, h.nodeExpr?_eq hc hd]

/-! ## Depth and warnings -/

/-- The search for the depth fills the same table. -/
theorem depth_eq (h : c.Alike d) : d.depth = c.depth := by
  have hsource : d.isOf Kind.isSource = c.isOf Kind.isSource := by
    funext id
    have hread : ∀ c : Circuit, c.isOf Kind.isSource id =
        ((c.component? id).bind fun x => some x.kind.isSource).any fun b => b := fun c => by
      rw [isOf]
      cases c.component? id <;> rfl
    rw [hread, hread, h.bind (fun x => some x.kind.isSource) fun _ => rfl]
  have habove : d.above = c.above := by
    funext depth id
    rw [above, above, hsource, h.driverGraph_eq]
  have hdepth : d.depthOf = c.depthOf := by
    funext id
    rw [depthOf, depthOf, depthTable, depthTable, depthOrder, depthOrder, habove,
      h.driverGraph_eq, h.ids_eq]
  rw [hd.depth_eq_deepest, hc.depth_eq_deepest, h.ids_eq, hdepth]

/-- Slots are empty in the same places, and there is a cycle in both or in neither. -/
theorem warnings_eq (h : c.Alike d) : d.warnings = c.warnings := by
  have hopen : ∀ {c : Circuit}, c.WellWired →
      c.gates.filter (fun g => g.slots.any (·.isNone)) = c.components.entries.filter fun x =>
        (c.driversOf x.id).any (·.isNone) && x.kind.isGate := fun {c} hc => by
    rw [gates, List.filter_filter]
    refine List.filter_congr fun x hx => ?_
    rw [hc.any_isNone_slots (Roster.mem_entries_iff.1 hx)]
  have hfloating : ∀ {c : Circuit}, c.WellWired →
      c.sinks.filter (fun s => (s.slots.head?.bind fun slot => slot).isNone) =
        c.components.entries.filter fun x =>
          ((c.driversOf x.id).head?.bind fun driver => driver).isNone && x.kind.isSink :=
    fun {c} hc => by
      rw [sinks, List.filter_filter]
      refine List.filter_congr fun x hx => ?_
      rw [hc.isNone_first_slot (Roster.mem_entries_iff.1 hx)]
  unfold warnings
  rw [hopen hc, hopen hd, hfloating hc, hfloating hd, h.hasCycle_eq hc hd, h.driversOf_eq,
    h.map_filter _ _ (fun _ => rfl) fun _ => rfl, h.map_filter _ _ (fun _ => rfl) fun _ => rfl]

/-! ## Netlists -/

/-- Sinks have the same outputs, one for each slot. -/
theorem allOutputs_eq (h : c.Alike d) : Netlist.allOutputs d = Netlist.allOutputs c := by
  have hread : ∀ {c : Circuit}, c.WellWired → Netlist.allOutputs c =
      (c.sinks.map fun x => (x.id, Netlist.signalName x.displayName)).flatMap fun sink =>
        (c.driversOf sink.1).zipIdx.map fun driver =>
          (if 1 < (c.driversOf sink.1).length then s!"{sink.2}_{driver.2}" else sink.2,
            Netlist.driverSignal c driver.1) := fun {c} hc => by
    rw [Netlist.allOutputs, List.flatMap_map]
    refine List.flatMap_congr fun x hx => ?_
    have hx : c.component? x.id = some x := (mem_sinks_iff.1 hx).1
    have harity : x.arity = (c.driversOf x.id).length := by
      rw [hc.length_driversOf hx, ← (hc.formed hx).slots, Component.arity]
    rw [Netlist.outputsOf, harity]
  have hsinks : d.sinks.map (fun x => (x.id, Netlist.signalName x.displayName)) =
      c.sinks.map fun x => (x.id, Netlist.signalName x.displayName) :=
    h.map_filter _ _ (fun _ => rfl) fun _ => rfl
  rw [hread hc, hread hd, hsinks, h.driversOf_eq, h.driverSignal_eq]

/-- The same netlist is written, as far as it is written. -/
theorem write_eq (h : c.Alike d) : Netlist.write d = Netlist.write c := by
  have hclaimed : Netlist.claimed d = Netlist.claimed c :=
    h.map_filter _ _ (fun _ => rfl) fun _ => rfl
  have hheader : Netlist.headerText d = Netlist.headerText c := by
    unfold Netlist.headerText sources
    rw [List.filter_filter, List.filter_filter, h.map_filter _ _ (fun _ => rfl) fun _ => rfl]
  have hconstants : d.sources.map Netlist.constantText = c.sources.map Netlist.constantText :=
    h.map_filter _ _ (fun _ => rfl) fun _ => rfl
  have hgates : d.gates.map (Netlist.gateText d) = c.gates.map (Netlist.gateText c) := by
    have htext : Netlist.gateText d = Netlist.gateText c := by
      funext x
      rw [Netlist.gateText, Netlist.gateText, h.driversOf_eq, h.driverSignal_eq]
    rw [htext]
    exact h.map_filter _ _ (fun _ => rfl) fun _ => rfl
  unfold Netlist.write Netlist.bodyText
  rw [hclaimed, hheader, hconstants, hgates, h.allOutputs_eq hc hd]

end Wired

end Alike

end Circuit

end LogicCircuit
