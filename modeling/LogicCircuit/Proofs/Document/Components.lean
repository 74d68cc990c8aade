import LogicCircuit.Proofs.Circuit.Adding
import LogicCircuit.Proofs.Document.Replay

/-!
# The components of a document

Loading adds a component for each record, under the name of the record or under a new one. Which
circuit that leads to is `Document.addComponents_eq_ok_iff`, and what a component has of its
record is `ComponentRecord.Describes`. A name is only looked for among those that the document
assigns. A component that is given a new name is lost, therefore, when a later record has just
this name: `loaded_components` says that nothing else is lost, and `generated_name_taken` is a
document where it happens.
-/

namespace LogicCircuit

namespace ComponentRecord

/-- A component is what a record describes: it has the names of its kind, the label and the place,
and a source has the level that is stored, or else that of a new source. -/
structure Describes (r : ComponentRecord) (x : Component) : Prop where
  category : x.kind.category = r.category
  /-- The kind is named in any mixture of capitals and small letters. -/
  subtype : Text.sameLetters x.kind.subtype r.subtype
  label : x.label = r.label
  position : x.position = r.position
  level : ∀ s, x.kind = .source s → s.level = (r.value.map (·.isSet)).getD s.kind.initialLevel

/-- Only the kind, the label and the place of a component are compared. -/
theorem Describes.congr {r : ComponentRecord} {x y : Component} (h : r.Describes x)
    (hkind : y.kind = x.kind) (hlabel : y.label = x.label) (hposition : y.position = x.position) :
    r.Describes y where
  category := by rw [hkind, h.category]
  subtype := by rw [hkind, h.subtype]
  label := hlabel.trans h.label
  position := hposition.trans h.position
  level s hs := h.level s (hkind ▸ hs)

/-- The state of a record does not change what a source is called. -/
theorem name_sourceState (r : ComponentRecord) (s : Source) :
    (r.sourceState s).kind.name = s.kind.name := by
  obtain ⟨kind, _⟩ := s
  unfold sourceState
  cases r.value <;> cases kind <;> rfl

/-- A source has the level that its record stores. -/
theorem level_sourceState (r : ComponentRecord) (s : Source) :
    (r.sourceState s).level = (r.value.map (·.isSet)).getD s.level := by
  obtain ⟨kind, _⟩ := s
  unfold sourceState
  cases r.value <;> cases kind <;> rfl

theorem initialLevel_sourceState (r : ComponentRecord) (s : Source) :
    (r.sourceState s).kind.initialLevel = s.kind.initialLevel := by
  obtain ⟨kind, _⟩ := s
  unfold sourceState
  cases r.value <;> cases kind <;> rfl

end ComponentRecord

/-- A kind that is found under some names has these names, and a source is new. -/
theorem Kind.ofNames?_eq_some {category subtype : String} {k : Kind}
    (h : ofNames? category subtype = some k) : k.category = category ∧
      Text.sameLetters k.subtype subtype ∧
      ∀ s, k = .source s → s.level = s.kind.initialLevel := by
  unfold ofNames? at h
  split at h
  case isTrue hgate =>
    obtain ⟨g, hg, rfl⟩ := Option.map_eq_some_iff.1 h
    have hname : Text.sameLetters g.name subtype :=
      List.find?_some (p := fun g : Gate => Text.sameLetters g.name subtype) hg
    exact ⟨hgate.symm, hname, fun s hs => nomatch hs⟩
  case isFalse =>
    split at h
    case isTrue hinput =>
      obtain ⟨k, hk, rfl⟩ := Option.map_eq_some_iff.1 h
      have hname : Text.sameLetters k.name subtype :=
        List.find?_some (p := fun k : SourceKind => Text.sameLetters k.name subtype) hk
      refine ⟨hinput.symm, hname, fun s hs => ?_⟩
      obtain rfl := Kind.source.inj hs
      rfl
    case isFalse =>
      split at h
      case isTrue houtput =>
        obtain ⟨k, hk, rfl⟩ := Option.map_eq_some_iff.1 h
        have hname : Text.sameLetters k.name subtype :=
          List.find?_some (p := fun k : SinkKind => Text.sameLetters k.name subtype) hk
        exact ⟨houtput.symm, hname, fun s hs => nomatch hs⟩
      case isFalse => cases h

/-- The component of a record is what the record describes. -/
theorem ComponentRecord.describes_component? {r : ComponentRecord} {x : Component}
    (h : r.component? = some x) : r.Describes x := by
  obtain ⟨kind, hkind, rfl⟩ := Option.map_eq_some_iff.1 h
  obtain ⟨hcategory, hsubtype, hlevel⟩ := Kind.ofNames?_eq_some hkind
  cases kind with
  | gate g => exact ⟨hcategory, hsubtype, rfl, rfl, fun s hs => nomatch hs⟩
  | sink s => exact ⟨hcategory, hsubtype, rfl, rfl, fun s hs => nomatch hs⟩
  | source s =>
      refine ⟨hcategory, ?_, rfl, rfl, fun t ht => ?_⟩
      · show Text.sameLetters (r.sourceState s).kind.name r.subtype
        rw [r.name_sourceState]
        exact hsubtype
      · obtain rfl := Kind.source.inj ht
        rw [r.level_sourceState, r.initialLevel_sourceState, hlevel s rfl]

namespace Document

/-- The names that some records assign are different from each other. -/
def AssignsDistinct (records : List ComponentRecord) : Prop :=
  records.Pairwise fun r s => s.id ≠ "" → r.id ≠ s.id

instance (records : List ComponentRecord) : Decidable (AssignsDistinct records) := by
  unfold AssignsDistinct; infer_instance

/-- Loading components succeeds exactly if each record has a kind and no name is assigned twice;
the components are then added in turn. -/
theorem addComponents_eq_ok_iff {seen : List ComponentId} {records : List ComponentRecord}
    {c d : Circuit} :
    addComponents seen records c = .ok d ↔ ∃ xs : List Component,
      records.map (·.component?) = xs.map some ∧ d = c.addAll xs ∧
        (∀ r ∈ records, r.id ≠ "" → r.id ∉ seen) ∧ AssignsDistinct records := by
  induction records generalizing seen c with
  | nil =>
      constructor
      · intro h
        exact ⟨[], rfl, (Except.ok.inj h).symm, by simp, .nil⟩
      · rintro ⟨xs, hxs, rfl, -⟩
        obtain rfl := List.map_eq_nil_iff.1 hxs.symm
        rfl
  | cons r records ih =>
      unfold addComponents
      constructor
      · intro h
        split at h
        · cases h
        · rename_i hnew
          split at h
          · cases h
          · rename_i x hx
            obtain ⟨xs, hxs, rfl, hseen, hdistinct⟩ := ih.1 h
            refine ⟨x :: xs, by rw [List.map_cons, List.map_cons, hx, hxs], rfl, ?_, ?_⟩
            · refine List.forall_mem_cons.2 ⟨fun hid hmem => hnew ⟨hid, hmem⟩, ?_⟩
              exact fun s hs hid hmem => hseen s hs hid (List.mem_cons_of_mem _ hmem)
            · refine List.pairwise_cons.2 ⟨fun s hs hid e => ?_, hdistinct⟩
              exact hseen s hs hid (e ▸ List.mem_cons_self)
      · rintro ⟨xs, hxs, rfl, hseen, hdistinct⟩
        cases xs with
        | nil => cases hxs
        | cons x xs =>
            obtain ⟨hx, hxs⟩ := List.cons.inj hxs
            obtain ⟨hnew, hseen⟩ := List.forall_mem_cons.1 hseen
            obtain ⟨hne, hdistinct⟩ := List.pairwise_cons.1 hdistinct
            rw [if_neg fun h => hnew h.1 h.2, show r.component? = some x from hx]
            refine ih.2 ⟨xs, hxs, rfl, fun s hs hid hmem => ?_, hdistinct⟩
            rcases List.mem_cons.1 hmem with e | hmem
            · exact hne s hs hid e.symm
            · exact hseen s hs hid hmem

/-- The components of a loaded circuit were added in turn, and then the wires. -/
theorem exists_addAll_of_toCircuit {d : Document} {strict : Bool} {report : LoadReport}
    {c : Circuit} (h : d.toCircuit strict = .ok (report, c)) : ∃ xs : List Component,
      d.components.map (·.component?) = xs.map some ∧ AssignsDistinct d.components ∧
        replayWires d.wires (Circuit.empty.addAll xs) = (report, c) := by
  unfold toCircuit at h
  split at h
  case h_1 => cases h
  case h_2 base hbase =>
    obtain ⟨xs, hxs, rfl, -, hdistinct⟩ := addComponents_eq_ok_iff.1 hbase
    split at h
    · cases h
    · exact ⟨xs, hxs, hdistinct, Except.ok.inj h⟩

/-- The component at some place of a list of records that all have one. -/
theorem getElem?_of_map_component? {records : List ComponentRecord} {xs : List Component}
    (hxs : records.map (·.component?) = xs.map some) {i : Nat} {r : ComponentRecord}
    (hr : records[i]? = some r) : ∃ x, xs[i]? = some x ∧ r.component? = some x := by
  have hlook : (records.map (·.component?))[i]? = (xs.map some)[i]? := by rw [hxs]
  rw [List.getElem?_map, List.getElem?_map, hr, Option.map_some, eq_comm,
    Option.map_eq_some_iff] at hlook
  obtain ⟨x, hx, hrx⟩ := hlook
  exact ⟨x, hx, hrx.symm⟩

/-- The components of records are well formed. -/
theorem wellFormed_of_map_component? {records : List ComponentRecord} {xs : List Component}
    (hxs : records.map (·.component?) = xs.map some) : ∀ x ∈ xs, x.WellFormed := by
  intro x hx
  have hmem : some x ∈ records.map (·.component?) := hxs ▸ List.mem_map_of_mem hx
  obtain ⟨r, -, hr⟩ := List.mem_map.1 hmem
  exact wellFormed_component? hr

/-- A component is named as its record is. -/
theorem id_component? {r : ComponentRecord} {x : Component} (h : r.component? = some x) :
    x.id = r.id := by
  obtain ⟨kind, -, rfl⟩ := Option.map_eq_some_iff.1 h
  rfl

section Names

variable {records : List ComponentRecord} {xs : List Component} {i : Nat} {r : ComponentRecord}
  {name : ComponentId}

/-- There are as many names as records. -/
theorem length_namesGiven_records (hxs : records.map (·.component?) = xs.map some) :
    (Circuit.empty.namesGiven xs).length = records.length := by
  rw [Circuit.length_namesGiven, ← List.length_map (f := some), ← hxs, List.length_map]

/-- A record is given the name that it assigns. -/
theorem namesGiven_of_assigned (hxs : records.map (·.component?) = xs.map some)
    (hr : records[i]? = some r) (hid : r.id ≠ "")
    (hname : (Circuit.empty.namesGiven xs)[i]? = some name) : name = r.id := by
  obtain ⟨x, hx, hrx⟩ := getElem?_of_map_component? hxs hr
  rw [← id_component? hrx] at hid ⊢
  exact Circuit.namesGiven_of_named hx hid hname

/-- A name that is generated is none of those before it. -/
theorem namesGiven_of_unassigned (hxs : records.map (·.component?) = xs.map some)
    (hr : records[i]? = some r) (hid : r.id = "")
    (hname : (Circuit.empty.namesGiven xs)[i]? = some name) :
    name ∉ (Circuit.empty.namesGiven xs).take i := by
  obtain ⟨x, hx, hrx⟩ := getElem?_of_map_component? hxs hr
  exact (Circuit.WellWired.empty.new_of_unnamed (wellFormed_of_map_component? hxs) hx
    ((id_component? hrx).trans hid) hname).2

/-- The names that the records of a document are given are different exactly if no assigned name
equals one that an earlier record without a name was given. -/
theorem nodup_namesGiven_iff (hxs : records.map (·.component?) = xs.map some)
    (hdistinct : AssignsDistinct records) :
    (Circuit.empty.namesGiven xs).Nodup ↔ ∀ (i j : Nat) (r s : ComponentRecord), i < j →
      records[i]? = some r → records[j]? = some s → r.id = "" → s.id ≠ "" →
        (Circuit.empty.namesGiven xs)[i]? ≠ some s.id := by
  have hlength := length_namesGiven_records hxs
  constructor
  · intro hnodup i j r s hlt hr hs _ hid hname
    have hj : j < (Circuit.empty.namesGiven xs).length :=
      hlength ▸ (List.getElem?_eq_some_iff.1 hs).1
    have hi := hlt.trans hj
    have hsame := namesGiven_of_assigned hxs hs hid (List.getElem?_eq_getElem hj)
    have hboth : (Circuit.empty.namesGiven xs)[i] = (Circuit.empty.namesGiven xs)[j] := by
      rw [hsame, ← Option.some.injEq, ← List.getElem?_eq_getElem hi, hname]
    exact absurd (hnodup.getElem_inj_iff.1 hboth) hlt.ne
  · intro hfresh
    refine List.pairwise_iff_getElem.2 fun i j hi hj hlt hsame => ?_
    have hr := List.getElem?_eq_getElem (hlength ▸ hi)
    have hs := List.getElem?_eq_getElem (hlength ▸ hj)
    have hname := List.getElem?_eq_getElem hi
    have hname' := List.getElem?_eq_getElem hj
    by_cases hid : records[j].id = ""
    · exact namesGiven_of_unassigned hxs hs hid hname'
        (List.mem_take_iff_getElem.2 ⟨i, lt_min hlt hi, hsame⟩)
    · have hassigned := namesGiven_of_assigned hxs hs hid hname'
      by_cases hid' : records[i].id = ""
      · exact hfresh i j _ _ hlt hr hs hid' hid (by rw [hname, hsame, hassigned])
      · have hassigned' := namesGiven_of_assigned hxs hr hid' hname
        exact List.pairwise_iff_getElem.1 hdistinct i j _ _ hlt hid
          (hassigned'.symm.trans (hsame.trans hassigned))

end Names

end Document

/-- Which components a loaded circuit has. Each record is given a name, its own or a new one, and
the names of the circuit are these. The last record of a name is found under it, with its kind,
label and stored level. There are as many components as records exactly if the names are all
different, and that is so exactly if no name that the document assigns equals one that was
generated for an earlier record. -/
theorem loaded_components {d : Document} {strict : Bool} {report : LoadReport} {c : Circuit}
    (h : d.toCircuit strict = .ok (report, c)) :
    ∃ names : List ComponentId, names.length = d.components.length ∧
      (∀ id, id ∈ c.ids ↔ id ∈ names) ∧
      (∀ (i : Nat) (r : ComponentRecord) (name : ComponentId),
        d.components[i]? = some r → names[i]? = some name →
        (r.id ≠ "" → name = r.id) ∧ (r.id = "" → name ∉ names.take i) ∧
        (name ∉ names.drop (i + 1) → ∃ x, c.component? name = some x ∧ r.Describes x)) ∧
      (c.components.size = d.components.length ↔ names.Nodup) ∧
      (names.Nodup ↔ ∀ (i j : Nat) (r s : ComponentRecord), i < j →
        d.components[i]? = some r → d.components[j]? = some s → r.id = "" → s.id ≠ "" →
          names[i]? ≠ some s.id) := by
  obtain ⟨xs, hxs, hdistinct, hreplay⟩ := Document.exists_addAll_of_toCircuit h
  have hformed := Document.wellFormed_of_map_component? hxs
  have hbase : (Circuit.empty.addAll xs).WellWired := .addAll .empty hformed
  have hcomponent := Document.component_replayWires hbase d.wires
  rw [hreplay] at hcomponent
  have hlength : xs.length = d.components.length := by
    rw [← List.length_map (f := some), ← hxs, List.length_map]
  have hids : c.ids = (Circuit.empty.addAll xs).ids :=
    Circuit.ids_eq_of_component hcomponent
  have hsize : c.components.size = (Circuit.empty.addAll xs).components.size := by
    have hlengths := congrArg List.length hids
    simpa [Circuit.ids, Roster.size] using hlengths
  refine ⟨Circuit.empty.namesGiven xs, Document.length_namesGiven_records hxs, fun id => ?_,
    fun i r name hr hname => ?_, ?_, Document.nodup_namesGiven_iff hxs hdistinct⟩
  · rw [hids, Circuit.WellWired.empty.mem_ids_addAll_iff hformed]
    exact or_iff_right List.not_mem_nil
  · refine ⟨fun hne => Document.namesGiven_of_assigned hxs hr hne hname,
      fun hempty => Document.namesGiven_of_unassigned hxs hr hempty hname, fun hlast => ?_⟩
    obtain ⟨x, hx, hrx⟩ := Document.getElem?_of_map_component? hxs hr
    have hfound := Circuit.WellWired.empty.component_addAll hformed hx hname hlast
    rw [← hcomponent] at hfound
    obtain ⟨y, hy, hyx⟩ := Option.map_eq_some_iff.1 hfound
    obtain ⟨-, hkind, hlabel, hposition, -⟩ := Component.eq_of_unplugged hyx
    exact ⟨y, hy, (ComponentRecord.describes_component? hrx).congr hkind hlabel hposition⟩
  · rw [hsize, ← hlength]
    exact Circuit.size_addAll_eq_iff hformed

/-- The record of a gate without a name. -/
def unnamedGate : ComponentRecord := .ofComponent (Component.gate .and .origin)

/-- The record of a gate with the name that is generated first. -/
def namedGate : ComponentRecord := .ofComponent ((Component.gate .or .origin).withId "gate-1")

/-- Nothing is lost where the name that is generated first is assigned before it is generated. -/
theorem loaded_components_two : ∃ report c,
    Document.toCircuit ⟨[namedGate, unnamedGate], []⟩ false = .ok (report, c) ∧
      c.components.size = 2 := by
  cases hload : Document.toCircuit ⟨[namedGate, unnamedGate], []⟩ false with
  | error e =>
      have hok : (Document.toCircuit ⟨[namedGate, unnamedGate], []⟩ false).isOk = true := by
        decide +kernel
      simp [hload, Except.isOk, Except.toBool] at hok
  | ok r =>
      obtain ⟨report, c⟩ := r
      obtain ⟨names, -, -, -, hsize, hnodup⟩ := loaded_components hload
      refine ⟨report, c, rfl, hsize.2 (hnodup.2 fun i j r s hlt hr hs hid => ?_)⟩
      have hj : j < 2 := (List.getElem?_eq_some_iff.1 hs).1
      obtain rfl : i = 0 := by omega
      obtain rfl := Option.some.inj hr
      exact absurd hid (by decide +kernel)

/-- A component is lost where the name that is generated first is assigned later. -/
theorem generated_name_taken : ∃ report c,
    Document.toCircuit ⟨[unnamedGate, namedGate], []⟩ false = .ok (report, c) ∧
      c.components.size = 1 ∧ ∀ x ∈ c.components.entries, x.kind = .gate .or := by
  have hload : (Document.toCircuit ⟨[unnamedGate, namedGate], []⟩ false).map
      (fun r => r.2.components.entries.map (·.kind)) = .ok [.gate .or] := by decide +kernel
  obtain ⟨r, hr, hkinds⟩ := ok_of_map_ok hload
  have hone : r.2.components.size = 1 := by simpa [Roster.size] using congrArg List.length hkinds
  refine ⟨r.1, r.2, hr, hone, fun x hx => ?_⟩
  have hmem : x.kind ∈ r.2.components.entries.map (·.kind) := List.mem_map_of_mem hx
  rw [hkinds] at hmem
  exact List.mem_singleton.1 hmem

end LogicCircuit
