import LogicCircuit.Proofs.Simulation.Levels
import LogicCircuit.Proofs.Table.Columns
import LogicCircuit.Proofs.Table.Numbering

/-!
# The truth table of a circuit

`Circuit.tabulate` makes one pass for each row over a circuit and a simulator that it shares
between the rows, and leaves both changed. What a row leaves behind is a circuit with the same
frame, the same labels and the same levels outside the inputs of the table: `Circuit.Retuned`.
Where the wires form no cycle this is all that the next row depends on, so each row has the values
that the circuit has by recursion on its drivers (`Retuned.tableRows_eq`). The main result
`tabulates_function` says what the columns and the rows are, and that the table is the same for
all retuned circuits.
-/

namespace LogicCircuit

namespace Circuit

variable {c d : Circuit} {ids outputs : List ComponentId} {id : ComponentId}
  {levels : List (ComponentId × Bool)} {s : Simulator}

/-! ## Circuits at other levels -/

/-- The second circuit differs from the first at most in the levels of some sources and in what a
pass leaves behind. -/
structure Retuned (ids : List ComponentId) (c d : Circuit) : Prop where
  /-- The frame is the same. -/
  frame : d.frame = c.frame
  /-- The labels are the same. -/
  labels : ∀ id, d.label? id = c.label? id
  /-- The other sources are at the same levels. -/
  levels : ∀ id ∉ ids, d.level? id = c.level? id

theorem isSome_lookup_iff : (levels.lookup id).isSome ↔ id ∈ levels.map (·.1) := by
  simp only [List.lookup_isSome_iff, List.mem_map, beq_iff_eq, eq_comm (a := id)]

namespace Retuned

theorem refl (ids : List ComponentId) (c : Circuit) : c.Retuned ids c :=
  ⟨rfl, fun _ => rfl, fun _ _ => rfl⟩

/-- The levels of the sources in question may be replaced. -/
theorem withLevels (h : c.Retuned ids d) (hlevels : levels.map (·.1) = ids) :
    c.Retuned ids (d.withLevels levels) := by
  refine ⟨(d.frame_withLevels levels).trans h.frame,
    fun id => (d.label?_withLevels levels id).trans (h.labels id), fun id hid => ?_⟩
  have hnone : levels.lookup id = none := by
    rw [← Option.not_isSome_iff_eq_none, isSome_lookup_iff, hlevels]
    exact hid
  simp [level?_withLevels, hnone, h.levels id hid]

/-- A pass may be made. -/
theorem evaluate (h : c.Retuned ids d) (s : Simulator) : c.Retuned ids (s.evaluate d).2.2 :=
  ⟨(frame_evaluate s d).trans h.frame, fun id => (label?_evaluate s d id).trans (h.labels id),
    fun id hid => (level?_evaluate s d id).trans (h.levels id hid)⟩

/-- Once the levels of the sources in question are replaced, all values are the same. -/
theorem denote_withLevels (h : c.Retuned ids d) (hlevels : levels.map (·.1) = ids)
    (id : ComponentId) : (d.withLevels levels).denote id = (c.withLevels levels).denote id := by
  have hframe : (d.withLevels levels).frame = (c.withLevels levels).frame := by
    rw [frame_withLevels, frame_withLevels, h.frame]
  refine denote_eq_of_levels hframe (fun a => ?_) id
  rw [level?_withLevels, level?_withLevels]
  by_cases ha : a ∈ ids
  · -- both sources have the new level, so it only matters that both are sources
    obtain ⟨on, hon⟩ := Option.isSome_iff_exists.1 (isSome_lookup_iff.2 (hlevels ▸ ha))
    have hsome := isSome_level?_of_frame h.frame a
    cases hd : d.level? a <;> cases hc : c.level? a <;> simp_all
  · rw [h.levels a ha]

/-- Components with the same frame and the same label are listed in the same columns. -/
theorem columns {p : Component → Bool} {columns : List (ComponentId × String)}
    (h : c.Retuned ids d) (hp : ∀ {x y : Component}, y.frame = x.frame → p y = p x)
    (hcolumns : c.Columns p columns) : d.Columns p columns := by
  have hfind : ∀ {c d : Circuit}, d.frame = c.frame → (∀ id, d.label? id = c.label? id) →
      ∀ {id name}, (∃ y, d.component? id = some y ∧ p y ∧ y.displayName = name) →
        ∃ x, c.component? id = some x ∧ p x ∧ x.displayName = name := by
    rintro c d hframe hlabels id name ⟨y, hy, hpy, rfl⟩
    obtain ⟨x, hx, hxy⟩ := component?_of_frame hframe hy
    have hlabel : y.label = x.label := by simpa [label?, hx, hy] using hlabels id
    have hid : y.id = x.id := (Component.Frame.mk.inj hxy).1
    exact ⟨x, hx, hp hxy ▸ hpy, by rw [Component.displayName, Component.displayName, hlabel, hid]⟩
  exact hcolumns.congr fun id name =>
    ⟨hfind h.frame h.labels, hfind h.frame.symm fun id => (h.labels id).symm⟩

/-- The table has the same input columns. -/
theorem tableInputs_eq (h : c.Retuned ids d) : d.tableInputs = c.tableInputs := by
  have hkind : ∀ k : Kind, (k.source?.any (·.kind.isTabulated)) =
      k.blank.source?.any (·.kind.isTabulated) := fun k => by
    rcases k with g | ⟨kind, level⟩ | s
    · rfl
    · cases kind <;> rfl
    · rfl
  refine d.columns_tableInputs.unique (h.columns (fun {x y} hframe => ?_) c.columns_tableInputs)
  have hblank : y.kind.blank = x.kind.blank := (Component.Frame.mk.inj hframe).2.2
  rw [Component.isTabulated, hkind, hblank, ← hkind]
  rfl

/-- The table has the same output columns. -/
theorem tableOutputs_eq (h : c.Retuned ids d) : d.tableOutputs = c.tableOutputs :=
  d.columns_tableOutputs.unique (h.columns
    (fun hframe => Kind.isSink_eq_of_blank (Component.Frame.mk.inj hframe).2.2)
    c.columns_tableOutputs)

end Retuned

/-! ## Rows -/

/-- A row of the function of a circuit: the binary digits of its number, and for each output its
value with the inputs at these levels. -/
def functionRow (c : Circuit) (ids outputs : List ComponentId) (row : Nat) : Row :=
  let bits := assignment row ids.length
  ⟨bits, outputs.map (c.withLevels (ids.zip bits)).denote⟩

section Rows

variable (hc : c.WellWired) (hacyclic : c.readerGraph.Acyclic) (hids : ids.Nodup)
  (houtputs : ∀ id ∈ outputs, ∃ x, c.component? id = some x ∧ x.kind.isSink)

include hc hacyclic hids houtputs

/-- One row shows the function, and what it leaves behind is good for the next one. -/
theorem Retuned.evaluate_row (hs : s.BelongsTo c) (hd : c.Retuned ids d) (row : Nat) :
    let next := s.evaluate (d.setLevels (ids.zip (assignment row ids.length)))
    outputs.map next.2.2.showsSet = (c.functionRow ids outputs row).outputs ∧
      next.2.1.BelongsTo c ∧ c.Retuned ids next.2.2 := by
  set levels := ids.zip (assignment row ids.length) with hlevels
  have hkeys : levels.map (·.1) = ids :=
    List.map_fst_zip (Nat.le_of_eq (length_assignment row ids.length).symm)
  rw [setLevels_eq_withLevels (hkeys ▸ hids)]
  have hset : c.Retuned ids (d.withLevels levels) := hd.withLevels hkeys
  have hgraph : (d.withLevels levels).readerGraph.Acyclic :=
    readerGraph_of_frame hset.frame ▸ hacyclic
  refine ⟨List.map_congr_left fun id hid => ?_, fun _ => hs.order_refresh hset.frame,
    hset.evaluate s⟩
  obtain ⟨x, hx, hsink⟩ := houtputs id hid
  obtain ⟨y, hy, hxy⟩ := component?_of_frame hset.frame.symm hx
  have hysink : y.kind.isSink :=
    (Kind.isSink_eq_of_blank (Component.Frame.mk.inj hxy).2.2).symm ▸ hsink
  have hwired : (d.withLevels levels).WellWired := hc.of_frame hset.frame
  rw [hwired.showsSet_evaluate hgraph (hs.of_frame hset.frame) hy hysink,
    hd.denote_withLevels hkeys]

/-- All rows show the function, however the levels and the outputs were before. -/
theorem Retuned.tableRows_eq (rows : List Nat) (hs : s.BelongsTo c) (hd : c.Retuned ids d) :
    (tableRows ids outputs rows s d).1 = rows.map (c.functionRow ids outputs) ∧
      c.Retuned ids (tableRows ids outputs rows s d).2 := by
  induction rows generalizing s d with
  | nil => exact ⟨rfl, hd⟩
  | cons row rows ih =>
      obtain ⟨hshown, hs', hd'⟩ := evaluate_row hc hacyclic hids houtputs hs hd row
      obtain ⟨hrest, hleft⟩ := ih hs' hd'
      unfold tableRows
      exact ⟨List.cons_eq_cons.2 ⟨congrArg (Row.mk _) hshown, hrest⟩, hleft⟩

end Rows

/-- The table of the function of a circuit. -/
def functionTable (c : Circuit) : TruthTable where
  inputs := c.tableInputs.map (·.2)
  outputs := c.tableOutputs.map (·.2)
  rows := (List.range (2 ^ c.tableInputs.length)).map
    (c.functionRow (c.tableInputs.map (·.1)) (c.tableOutputs.map (·.1)))

/-- The rows of the function of a circuit, by number. -/
theorem getElem?_functionTable {i : Nat} {row : Row} : c.functionTable.rows[i]? = some row ↔
    i < 2 ^ c.tableInputs.length ∧
      c.functionRow (c.tableInputs.map (·.1)) (c.tableOutputs.map (·.1)) i = row := by
  rw [functionTable, List.getElem?_map, Option.map_eq_some_iff]
  simp only [List.getElem?_eq_some_iff, List.length_range, List.getElem_range]
  constructor
  · rintro ⟨_, ⟨hi, rfl⟩, hrow⟩
    exact ⟨hi, hrow⟩
  · rintro ⟨hi, hrow⟩
    exact ⟨i, ⟨hi, rfl⟩, hrow⟩

theorem length_rows_functionTable (c : Circuit) :
    c.functionTable.rows.length = 2 ^ c.tableInputs.length := by
  simp [functionTable]

/-- A row has the digits of its number. -/
theorem digits_of_row {i : Nat} {row : Row} (hrow : c.functionTable.rows[i]? = some row) :
    row.inputs.length = c.tableInputs.length ∧ bitsToNat row.inputs.reverse = i := by
  obtain ⟨hi, hbits⟩ := getElem?_functionTable.1 hrow
  have hdigits : row.inputs = assignment i c.tableInputs.length := by
    rw [← hbits, functionRow, List.length_map]
  exact ⟨hdigits ▸ length_assignment _ _, hdigits ▸ bitsToNat_assignment hi⟩

/-- The table of a circuit without cycles is that of its function, and the circuit is left
retuned. -/
theorem WellWired.tabulate_eq (hc : c.WellWired) (hacyclic : c.readerGraph.Acyclic) :
    c.tabulate.1 = (if c.tableInputs.isEmpty || c.tableOutputs.isEmpty then none
      else some c.functionTable) ∧ c.Retuned (c.tableInputs.map (·.1)) c.tabulate.2 := by
  have houtputs : ∀ id ∈ c.tableOutputs.map (·.1),
      ∃ x, c.component? id = some x ∧ x.kind.isSink := by
    intro id hid
    obtain ⟨a, ha, rfl⟩ := List.mem_map.1 hid
    obtain ⟨x, hx, hsink, -⟩ := c.columns_tableOutputs.mem_iff.1 ha
    exact ⟨x, hx, hsink⟩
  obtain ⟨hrows, hleft⟩ := Retuned.tableRows_eq hc hacyclic c.columns_tableInputs.nodup houtputs
    (List.range (1 <<< c.tableInputs.length)) (Simulator.belongsTo_new c) (.refl _ c)
  unfold tabulate
  dsimp only
  split
  · exact ⟨rfl, .refl _ c⟩
  · rw [Nat.one_shiftLeft] at hrows hleft
    rw [Nat.one_shiftLeft]
    exact ⟨congrArg (fun rows => some (TruthTable.mk _ _ rows)) hrows, hleft⟩

/-- Retuned circuits have the same function. -/
theorem Retuned.functionTable_eq (h : c.Retuned (c.tableInputs.map (·.1)) d) :
    d.functionTable = c.functionTable := by
  unfold functionTable
  rw [h.tableInputs_eq, h.tableOutputs_eq]
  refine congrArg (TruthTable.mk _ _) (List.map_congr_left fun row _ => ?_)
  refine congrArg (Row.mk _) (List.map_congr_left fun id _ => ?_)
  exact h.denote_withLevels
    (List.map_fst_zip (Nat.le_of_eq (length_assignment row _).symm)) id

/-- Retuned circuits without cycles have the same table. -/
theorem Retuned.tabulate_eq (h : c.Retuned (c.tableInputs.map (·.1)) d) (hc : c.WellWired)
    (hacyclic : c.readerGraph.Acyclic) : d.tabulate.1 = c.tabulate.1 := by
  have hd : d.WellWired := hc.of_frame h.frame
  have hdacyclic : d.readerGraph.Acyclic := readerGraph_of_frame h.frame ▸ hacyclic
  rw [(hd.tabulate_eq hdacyclic).1, (hc.tabulate_eq hacyclic).1, h.tableInputs_eq,
    h.tableOutputs_eq, h.functionTable_eq]

end Circuit

/-- The truth table of a circuit is its function. In a reachable circuit without cycles let the
inputs be the switches and constants and the outputs the sinks, by display name and then by name.
There is a table unless one of the two lists is empty. It has a row for each number below two to
the number of inputs: the row has the binary digits of its number, the first input highest, and
for each output the value by recursion on its drivers when the inputs are at these levels and
buttons and clocks at their own. Circuits that differ only in the levels of inputs and in what
passes leave behind have the same table, and so has the circuit that the table leaves behind. -/
theorem tabulates_function {c : Circuit} (h : c.Reachable) (hcycle : c.hasCycle = false) :
    ∃ inputs outputs, c.Columns Component.isTabulated inputs ∧
      c.Columns (·.kind.isSink) outputs ∧
      (c.tabulate.1 = none ↔ inputs = [] ∨ outputs = []) ∧
      (∀ t, c.tabulate.1 = some t →
        t.inputs = inputs.map (·.2) ∧ t.outputs = outputs.map (·.2) ∧
        t.rows.length = 2 ^ inputs.length ∧
        ∀ r row, t.rows[r]? = some row →
          row.inputs.length = inputs.length ∧ bitsToNat row.inputs.reverse = r ∧
          row.outputs = outputs.map fun o =>
            (c.withLevels ((inputs.map (·.1)).zip row.inputs)).denote o.1) ∧
      (∀ d, c.Retuned (inputs.map (·.1)) d → d.tabulate.1 = c.tabulate.1) ∧
      c.tabulate.2.tabulate.1 = c.tabulate.1 := by
  have hc := h.wellWired
  have hacyclic := hc.hasCycle_eq_false_iff.1 hcycle
  obtain ⟨htable, hleft⟩ := hc.tabulate_eq hacyclic
  refine ⟨c.tableInputs, c.tableOutputs, c.columns_tableInputs, c.columns_tableOutputs, ?_,
    fun t ht => ?_, fun d hd => hd.tabulate_eq hc hacyclic, hleft.tabulate_eq hc hacyclic⟩
  · rw [htable]
    simp [or_iff_not_imp_left]
  · rw [htable, Option.ite_none_left_eq_some] at ht
    obtain rfl := Option.some.inj ht.2
    refine ⟨rfl, rfl, c.length_rows_functionTable, fun r row hrow => ?_⟩
    obtain ⟨hwidth, hdigits⟩ := Circuit.digits_of_row hrow
    obtain ⟨-, rfl⟩ := Circuit.getElem?_functionTable.1 hrow
    exact ⟨hwidth, hdigits, by simp [Circuit.functionRow]⟩

/-- A lever that counts while a button is held, and a constant, with a counter and a light. By
label the lever comes before the constant, by name after it. -/
def heldLever : Circuit :=
  Edit.applyAll
    [.add ((Component.source .high .origin).withId "fixed") (by decide),
      .add ((Component.source .switch .origin).withId "lever") (by decide),
      .add ((Component.source .button .origin).withId "hold") (by decide),
      .add ((Component.gate .and .origin).withId "gated") (by decide),
      .add ((Component.sink .display .origin).withId "counter") (by decide),
      .add ((Component.sink .bulb .origin).withId "light") (by decide),
      .setLabel "fixed" (some "B"), .setLabel "lever" (some "A"), .press "hold" true,
      .connect "lever" "gated" 0, .connect "hold" "gated" 1, .connect "gated" "counter" 0,
      .connect "fixed" "counter" 2, .connect "fixed" "light" 0]
    .empty

/-- The columns of the held lever. -/
theorem columns_heldLever :
    heldLever.Columns Component.isTabulated [("lever", "A"), ("fixed", "B")] ∧
      heldLever.Columns (·.kind.isSink) [("counter", "counter"), ("light", "light")] := by
  have hsources : (heldLever.components.entries.filter Component.isTabulated).map
      (fun x => (x.id, x.displayName)) = [("fixed", "B"), ("lever", "A")] := by decide +kernel
  have hsinks : (heldLever.components.entries.filter (·.kind.isSink)).map
      (fun x => (x.id, x.displayName)) = [("counter", "counter"), ("light", "light")] := by
    decide +kernel
  have hinputs := heldLever.columns_named Component.isTabulated
  have houtputs := heldLever.columns_named (·.kind.isSink)
  rw [Circuit.named, hsources] at hinputs
  rw [Circuit.named, hsinks] at houtputs
  exact ⟨by simpa [List.mergeSort, List.MergeSort.Internal.splitInTwo] using hinputs,
    by simpa [List.mergeSort, List.MergeSort.Internal.splitInTwo] using houtputs⟩

/-- The table of the held lever has four rows. The third has the lever on and the constant off, so
that the counter shows one and the light is off. A second table is the same. -/
theorem tabulates_function_heldLever : heldLever.Reachable ∧ heldLever.hasCycle = false ∧
    ∃ t, heldLever.tabulate.1 = some t ∧
      t.inputs = ["A", "B"] ∧ t.outputs = ["counter", "light"] ∧
      t.rows.length = 4 ∧ t.rows[2]? = some ⟨[true, false], [true, false]⟩ ∧
      heldLever.tabulate.2.tabulate.1 = some t := by
  have hreach : heldLever.Reachable := reachable_applyAll _
  have hcycle : heldLever.hasCycle = false := by decide +kernel
  obtain ⟨inputs, outputs, hinputs, houtputs, hnone, hsome, -, hagain⟩ :=
    tabulates_function hreach hcycle
  obtain rfl := hinputs.unique columns_heldLever.1
  obtain rfl := houtputs.unique columns_heldLever.2
  obtain ⟨t, ht⟩ := Option.ne_none_iff_exists'.1 fun h => by simpa using hnone.1 h
  obtain ⟨htin, htout, hlength, hrows⟩ := hsome t ht
  have hlast : 2 < t.rows.length := by rw [hlength]; decide
  obtain ⟨hwidth, hdigits, hshown⟩ := hrows 2 t.rows[2] (List.getElem?_eq_getElem hlast)
  refine ⟨hreach, hcycle, t, ht, htin, htout, hlength, ?_, hagain.trans ht⟩
  obtain ⟨a, b, hbits⟩ := List.length_eq_two.1 hwidth
  obtain ⟨rfl, rfl⟩ : a = true ∧ b = false := by
    rw [hbits] at hdigits
    revert hdigits
    cases a <;> cases b <;> decide
  have hshows :
      (heldLever.withLevels [("lever", true), ("fixed", false)]).denote "counter" = true ∧
        (heldLever.withLevels [("lever", true), ("fixed", false)]).denote "light" = false := by
    decide +kernel
  have hout : t.rows[2].outputs = [true, false] := by
    rw [hshown, hbits]
    simp [hshows]
  rw [List.getElem?_eq_getElem hlast]
  exact congrArg some (congrArg₂ Row.mk hbits hout)

end LogicCircuit
