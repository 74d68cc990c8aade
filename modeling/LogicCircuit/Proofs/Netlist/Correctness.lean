import LogicCircuit.Proofs.Netlist.Dependence
import LogicCircuit.Proofs.Netlist.Reading
import Mathlib

/-!
# Circuits that are read from netlists

An accepted text has a netlist with one signal for each statement (`IsOf`), no two of them of one
name. The circuit that is read from it computes its signals (`ComputedBy`), and if everything that
is reached is defined, it is refused exactly if something that is reached depends on itself. Both
together are `netlist_meaning`. What the search for a driver answers for any name of an accepted
text is `buffers_followed_to_end`.
-/

namespace LogicCircuit

namespace Text

theorem isLower_of_mem_capitalsOf {c x : Char} (hx : x ∈ capitalsOf c) : x.isLower = false := by
  have hbeyond : ∀ letters ∈ lettersBeyond, ∀ x ∈ letters.2.toList, x.isLower = false := by
    simp [lettersBeyond]
  unfold capitalsOf at hx
  split at hx
  case h_1 letters hlook =>
    obtain ⟨before, after, heq, -⟩ := List.lookup_eq_some_iff.1 hlook
    exact hbeyond (c.toNat, letters) (by simp [heq]) x hx
  case h_2 =>
    obtain rfl := List.mem_singleton.1 hx
    exact Char.isLower_toUpper_eq_false c

/-- A text in capitals stays as it is. -/
theorem capitals_allCapitals (s : String) : capitals (allCapitals s) = allCapitals s := by
  rw [capitals, allCapitals, String.toList_ofList]
  refine congrArg String.ofList ((List.map_congr_left fun x hx => ?_).trans (List.map_id _))
  obtain ⟨c, -, hx⟩ := List.mem_flatMap.1 hx
  exact Char.toUpper_eq_of_not_isLower (by simp [isLower_of_mem_capitalsOf hx])

end Text

/-- The names of an operation, in capitals. -/
def Operation.words : Operation → List String
  | gate g => [g.name]
  | buffer => ["BUF", "BUFF"]
  | constant false => ["GND", "VSS"]
  | constant true => ["VDD"]

/-- An operation is found under its names alone. -/
theorem Operation.mem_words_of_ofName? {word : String} {operation : Operation}
    (hword : Text.capitals word = word) (h : ofName? word = some operation) :
    word ∈ operation.words := by
  unfold ofName? at h
  split at h
  case isTrue hbuffer =>
    obtain rfl := Option.some.inj h
    simpa [words] using hbuffer
  case isFalse =>
    split at h
    case isTrue hoff =>
      obtain rfl := Option.some.inj h
      simpa [words] using hoff
    case isFalse =>
      split at h
      case isTrue hon =>
        obtain rfl := Option.some.inj h
        simpa [words] using hon
      case isFalse =>
        obtain ⟨g, hg, rfl⟩ := Option.map_eq_some_iff.1 h
        have hsame : Text.sameLetters g.name word = true :=
          List.find?_some (p := fun g : Gate => Text.sameLetters g.name word) hg
        have hname : Text.capitals g.name = g.name := by cases g <;> decide +kernel
        rw [Text.sameLetters, beq_iff_eq, hname, hword] at hsame
        exact List.mem_singleton.2 hsame.symm

/-- A signal is the one that a statement drives. -/
structure Signal.IsOf (s : Signal) (statement : Statement) : Prop where
  name : s.name = statement.name
  args : s.args = statement.args
  operation : Text.allCapitals statement.op ∈ s.operation.words

/-- The signal of a statement is the one that it drives, and it has its arguments. -/
theorem Statement.isOf_of_signal {statement : Statement} {s : Signal}
    (h : statement.signal = .ok s) : s.IsOf statement ∧ s.args.length = s.operation.arity := by
  unfold signal at h
  dsimp only at h
  split at h
  case h_1 => cases h
  case h_2 operation hop =>
    split at h
    case isTrue harity =>
      obtain rfl := Except.ok.inj h
      have hword := Operation.mem_words_of_ofName? (Text.capitals_allCapitals _) hop
      exact ⟨⟨rfl, rfl, hword⟩, harity⟩
    case isFalse =>
      split at h
      · split at h <;> cases h
      · cases h

namespace Netlist

/-- A netlist is what a text says: it has the same inputs and outputs and a signal for each
statement. -/
structure IsOf (n : Netlist) (t : NetlistText) : Prop where
  inputs : n.inputs = t.inputs
  outputs : n.outputs = t.outputs
  signals : List.Forall₂ Signal.IsOf n.signals t.statements

/-- A component shows what a name means after one pass of a new simulator. -/
def Shown (n : Netlist) (level : String → Bool) (c : Circuit) (id : ComponentId) (name : String) :
    Prop :=
  ∃ on, (∀ bit, n.Means level name bit ↔ bit = on) ∧
    ((Simulator.new.evaluate c).2.2.component? id).map (·.value) = some (.bit on)

/-- The switches, the gates and the bulbs of a circuit are those of a netlist, and whatever the
switches are set to, in whatever order, the gates and the bulbs show what their names mean. -/
structure ComputedBy (n : Netlist) (c : Circuit) : Prop where
  switches : ∀ id, (∃ x level, c.component? id = some x ∧ x.kind = .source ⟨.switch, level⟩) ↔
    ∃ name ∈ n.inputs, id = inputId name
  gates : ∀ id, (∃ x g, c.component? id = some x ∧ x.kind = .gate g) ↔
    ∃ s ∈ n.signals, IsGate s ∧ id = gateId s.name
  sinks : ∀ id, (∃ x s, c.component? id = some x ∧ x.kind = .sink s) ↔
    ∃ name ∈ n.outputs, id = outputId name
  shown : ∀ (level : String → Bool) (order : List String),
    (∀ name, name ∈ order ↔ name ∈ n.inputs) → ∃ d,
      order.foldlM (fun c name => c.setSwitch? (inputId name) (level name)) c = some d ∧
      (∀ s ∈ n.signals, IsGate s → n.Shown level d (gateId s.name) s.name) ∧
      ∀ name ∈ n.outputs, n.Shown level d (outputId name) name

variable {n : Netlist} {t : NetlistText} {c : Circuit} {statements : List Statement}
  {signals : List Signal}

/-- The signals of statements, one for each. -/
theorem forall₂_of_mapM (h : statements.mapM Statement.signal = .ok signals) :
    List.Forall₂ Signal.IsOf signals statements ∧
      ∀ s ∈ signals, s.args.length = s.operation.arity := by
  induction statements generalizing signals with
  | nil =>
      obtain rfl := Except.ok.inj h
      exact ⟨.nil, fun _ hs => nomatch hs⟩
  | cons statement statements ih =>
      rw [List.mapM_cons] at h
      obtain ⟨s, hs, h⟩ := ok_of_bind_ok h
      obtain ⟨rest, hrest, h⟩ := ok_of_bind_ok h
      obtain rfl := Except.ok.inj h
      obtain ⟨hisOf, harity⟩ := Statement.isOf_of_signal hs
      obtain ⟨hall, harities⟩ := ih hrest
      exact ⟨.cons hisOf hall, List.forall_mem_cons.2 ⟨harity, harities⟩⟩

/-- The netlist of an accepted text is what it says, and is well formed. -/
theorem isOf_of_ofText (h : ofText t = .ok n) : n.IsOf t ∧ n.driven.Nodup ∧ n.FullyApplied := by
  obtain ⟨signals, hsignals, h⟩ := ok_of_bind_ok h
  obtain ⟨hisOf, happlied⟩ := forall₂_of_mapM hsignals
  split at h
  case h_1 => cases h
  case h_2 hnone =>
    obtain rfl := Except.ok.inj h
    exact ⟨⟨rfl, rfl, hisOf⟩, (repeated?_eq_none_iff.1 hnone).1, happlied⟩

/-- What shows the one thing that a name means shows it. -/
theorem shown_of_exists (hn : n.driven.Nodup) {level : String → Bool} {id : ComponentId}
    {name : String} (h : ∃ on, n.Means level name on ∧
      ((Simulator.new.evaluate c).2.2.component? id).map (·.value) = some (.bit on)) :
    n.Shown level c id name := by
  obtain ⟨on, hmeans, hvalue⟩ := h
  exact ⟨on, fun bit => ⟨fun hbit => hmeans.unique hn hbit, fun heq => heq ▸ hmeans⟩, hvalue⟩

/-- The circuit of a netlist computes it. -/
theorem computedBy_of_toCircuit (hn : n.driven.Nodup) (happlied : n.FullyApplied)
    (h : n.toCircuit = .ok c) : n.ComputedBy c := by
  have hrealizes := realizes_of_toCircuit h
  refine ⟨fun _ => hrealizes.exists_switch_iff, fun _ => hrealizes.exists_gate_iff,
    fun _ => hrealizes.exists_sink_iff, fun level order horder => ?_⟩
  obtain ⟨d, hset, hlit⟩ :=
    hrealizes.exists_lit hn happlied (run_toCircuit h).unforced.acyclic horder level
  have hnew := Simulator.belongsTo_new d
  exact ⟨d, hset, fun s hs hgate => shown_of_exists hn (hlit.value_gate hs hgate hnew),
    fun name hname => shown_of_exists hn (hlit.value_output hname hnew)⟩

/-- A text that says a netlist is accepted. -/
theorem exists_of_says (text : String) (n : Netlist)
    (h : (NetlistText.ofString text >>= ofText).toOption = some n) :
    ∃ t, NetlistText.ofBytes text.toUTF8.toList = .ok t ∧ ofText t = .ok n := by
  rw [← ofBytes_toUTF8] at h
  exact ok_of_bind_ok (ok_of_toOption h)

end Netlist

/-- Reading a netlist gives its meaning. A text from which a circuit is read says a netlist, and
the circuit computes it: whatever the switches of the inputs are set to, one pass of a new
simulator gives each gate and each bulb the value that its signal has by recursion on the
statements. A text that says a netlist in which everything that is reached is defined is refused
exactly if something that is reached depends on itself. -/
theorem netlist_meaning (s : List UInt8) :
    (∀ c, Circuit.ofNetlist s = .ok c → ∃ t n, NetlistText.ofBytes s = .ok t ∧
      Netlist.ofText t = .ok n ∧ n.IsOf t ∧ n.ComputedBy c) ∧
    ∀ t n, NetlistText.ofBytes s = .ok t → Netlist.ofText t = .ok n → n.IsOf t ∧
      ((∀ name, n.Reached name → n.Defined name) →
        ((∃ reason, Circuit.ofNetlist s = .error reason) ↔
          ∃ name, n.Reached name ∧ Relation.TransGen n.Asks name name)) := by
  constructor
  · intro c h
    obtain ⟨t, ht, h⟩ := ok_of_bind_ok h
    obtain ⟨n, hn, h⟩ := ok_of_bind_ok h
    obtain ⟨hisOf, hnodup, happlied⟩ := Netlist.isOf_of_ofText hn
    exact ⟨t, n, ht, hn, hisOf, Netlist.computedBy_of_toCircuit hnodup happlied h⟩
  · intro t n ht hn
    obtain ⟨hisOf, hnodup, happlied⟩ := Netlist.isOf_of_ofText hn
    rw [Netlist.ofNetlist_eq ht hn]
    exact ⟨hisOf, Netlist.refused_iff_cyclic hnodup happlied⟩

/-- Signals are used before they are driven: a gate behind a buffer, a gate of a gate, and
constants of both kinds. -/
def foldedText : String :=
  "INPUT(a)\nOUTPUT(y)\ny = buff(z)\nz = NAND(a, w)\nw = OR(one, q)\none = VDD\nq = BUF(gnd)\n"

/-- The netlist of the folded text. -/
def foldedNetlist : Netlist where
  inputs := ["a"]
  outputs := ["y"]
  signals := [⟨"y", .buffer, ["z"]⟩, ⟨"z", .gate .nand, ["a", "w"]⟩,
    ⟨"w", .gate .or, ["one", "q"]⟩, ⟨"one", .constant true, []⟩, ⟨"q", .buffer, ["gnd"]⟩]

/-- A gate reads itself through a buffer. -/
def ringText : String := "INPUT(a)\nOUTPUT(y)\ny = NAND(a, z)\nz = BUF(y)\n"

/-- The netlist of the ring. -/
def ringNetlist : Netlist where
  inputs := ["a"]
  outputs := ["y"]
  signals := [⟨"y", .gate .nand, ["a", "z"]⟩, ⟨"z", .buffer, ["y"]⟩]

/-- With its input on, the gate of the folded text and the bulb behind its buffer are off. The
ring is refused. -/
theorem netlist_meaning_folded :
    (∃ c d, Circuit.ofNetlist foldedText.toUTF8.toList = .ok c ∧
      c.setSwitch? "input-a" true = some d ∧
      ((Simulator.new.evaluate d).2.2.component? "gate-z").map (·.value) = some (.bit false) ∧
      ((Simulator.new.evaluate d).2.2.component? "output-y").map (·.value) = some (.bit false)) ∧
    ∃ reason, Circuit.ofNetlist ringText.toUTF8.toList = .error reason := by
  constructor
  · obtain ⟨t, ht, hn⟩ := Netlist.exists_of_says foldedText foldedNetlist (by decide +kernel)
    obtain ⟨c, hc⟩ := Option.isSome_iff_exists.1
      (by decide +kernel : foldedNetlist.toCircuit.toOption.isSome)
    have hread : Circuit.ofNetlist foldedText.toUTF8.toList = .ok c :=
      (Netlist.ofNetlist_eq ht hn).trans (ok_of_toOption hc)
    obtain ⟨t', n, ht', hn', -, hcomputed⟩ := (netlist_meaning _).1 c hread
    obtain rfl := Except.ok.inj (ht.symm.trans ht')
    obtain rfl := Except.ok.inj (hn.symm.trans hn')
    have hz : foldedNetlist.Means (fun _ => true) "z" false := by
      have ha : foldedNetlist.Means (fun _ => true) "a" true := .input (by decide)
      have hgnd : foldedNetlist.Means (fun _ => true) "gnd" false := .ground (by decide)
      have hone : foldedNetlist.Means (fun _ => true) "one" true :=
        .signal (s := ⟨"one", .constant true, []⟩) (fun _ => false) (by decide) (by simp)
      have hq : foldedNetlist.Means (fun _ => true) "q" false :=
        .signal (s := ⟨"q", .buffer, ["gnd"]⟩) (fun _ => false) (by decide) (by simpa using hgnd)
      have hw : foldedNetlist.Means (fun _ => true) "w" true :=
        .signal (s := ⟨"w", .gate .or, ["one", "q"]⟩) (· == "one") (by decide)
          (by simpa using ⟨hone, hq⟩)
      exact .signal (s := ⟨"z", .gate .nand, ["a", "w"]⟩) (fun _ => true) (by decide)
        (by simpa using ⟨ha, hw⟩)
    have hy : foldedNetlist.Means (fun _ => true) "y" false :=
      .signal (s := ⟨"y", .buffer, ["z"]⟩) (fun _ => false) (by decide) (by simpa using hz)
    obtain ⟨d, hset, hgates, houtputs⟩ :=
      hcomputed.shown (fun _ => true) ["a"] fun _ => Iff.rfl
    obtain ⟨on, hon, hgate⟩ := hgates ⟨"z", .gate .nand, ["a", "w"]⟩ (by decide) ⟨.nand, rfl⟩
    obtain rfl := (hon false).1 hz
    obtain ⟨on, hon, hbulb⟩ := houtputs "y" (by decide)
    obtain rfl := (hon false).1 hy
    have hswitch : c.setSwitch? (Netlist.inputId "a") true = some d := by simpa using hset
    exact ⟨c, d, hread, hswitch, hgate, hbulb⟩
  · obtain ⟨t, ht, hn⟩ := Netlist.exists_of_says ringText ringNetlist (by decide +kernel)
    have hdriven : ∀ s ∈ ringNetlist.signals, ∀ arg ∈ s.args, arg ∈ ringNetlist.driven := by
      decide
    have hdefined : ∀ name, ringNetlist.Reached name → ringNetlist.Defined name := by
      intro name hname
      refine .inl ?_
      cases hname with
      | argument hs _ harg => exact hdriven _ hs _ harg
      | output houtput =>
          obtain rfl := List.mem_singleton.1 houtput
          decide
      | step _ hasks =>
          obtain ⟨s, hs, -, harg⟩ := hasks
          exact hdriven s hs _ harg
    refine (((netlist_meaning _).2 t ringNetlist ht hn).2 hdefined).2
      ⟨"y", .output (by decide), ?_⟩
    have hyz : ringNetlist.Asks "y" "z" := ⟨⟨"y", .gate .nand, ["a", "z"]⟩, by decide⟩
    have hzy : ringNetlist.Asks "z" "y" := ⟨⟨"z", .buffer, ["y"]⟩, by decide⟩
    exact .head hyz (.single hzy)

/-- How a name of an accepted text is resolved. There is a signal for each statement, and each
buffer has the argument that the search goes on with. The search finds a driver exactly if the
chain of buffers behind the name, however long it is, ends at what this drives. It fails in two
cases: the chain ends at a name that is not defined, which is reported, or it returns to itself,
and the name that was asked for is reported. In the second case and in no other the search runs
out of steps. -/
theorem buffers_followed_to_end {t : NetlistText} {n : Netlist} (h : Netlist.ofText t = .ok n)
    (name : String) :
    n.IsOf t ∧ (∀ s ∈ n.signals, s.operation = .buffer → ∃ arg, s.args = [arg]) ∧
    (∀ driver, n.resolve name = .ok driver ↔
      ∃ a, Relation.ReflTransGen n.Buffers name a ∧ n.DrivenBy a driver) ∧
    (∀ reason, n.resolve name = .error reason ↔
      (∃ a, Relation.ReflTransGen n.Buffers name a ∧ ¬ n.Defined a ∧ reason = .undefined a) ∨
        n.Circles name ∧ reason = .undefined name) ∧
    (n.RunsOut name ↔ n.Circles name) := by
  obtain ⟨hisOf, hnodup, happlied⟩ := Netlist.isOf_of_ofText h
  refine ⟨hisOf, fun s hs hop => happlied.exists_arg hs hop, fun driver => ?_, fun reason => ?_,
    Netlist.runsOut_iff hnodup happlied⟩
  · rw [Netlist.resolve_eq_iff hnodup happlied]
    simp only [Netlist.ends_ok_iff, reduceCtorEq, and_false, or_false]
  · rw [Netlist.resolve_eq_iff hnodup happlied]
    simp only [Netlist.ends_error_iff, Except.error.injEq]

/-- Buffers in front of an input, of a name that is not defined and of a ring of buffers. -/
def bufferedText : NetlistText where
  inputs := ["a"]
  outputs := []
  statements := [⟨2, "p", "BUF", ["q"]⟩, ⟨3, "q", "buff", ["r"]⟩, ⟨4, "r", "Buf", ["a"]⟩,
    ⟨5, "u", "BUF", ["v"]⟩, ⟨6, "w", "BUFF", ["x"]⟩, ⟨7, "x", "BUF", ["y"]⟩,
    ⟨8, "y", "BUF", ["x"]⟩]

/-- The netlist of the buffered text. -/
def bufferedNetlist : Netlist where
  inputs := ["a"]
  outputs := []
  signals := [⟨"p", .buffer, ["q"]⟩, ⟨"q", .buffer, ["r"]⟩, ⟨"r", .buffer, ["a"]⟩,
    ⟨"u", .buffer, ["v"]⟩, ⟨"w", .buffer, ["x"]⟩, ⟨"x", .buffer, ["y"]⟩, ⟨"y", .buffer, ["x"]⟩]

/-- The first of three buffers is driven by the input. The undefined name is reported where a
buffer leads to it, and a buffer in front of the ring is reported itself. -/
theorem buffers_followed_to_end_buffered :
    Netlist.ofText bufferedText = .ok bufferedNetlist ∧
    bufferedNetlist.resolve "p" = .ok (.input "a") ∧
    bufferedNetlist.resolve "u" = .error (.undefined "v") ∧ ¬ bufferedNetlist.RunsOut "u" ∧
    bufferedNetlist.resolve "w" = .error (.undefined "w") ∧ bufferedNetlist.RunsOut "w" := by
  have haccepted : Netlist.ofText bufferedText = .ok bufferedNetlist := rfl
  have hp := ((buffers_followed_to_end haccepted "p").2.2.1 (.input "a")).2
    ⟨"a", .head (b := "q") (by decide) (.head (b := "r") (by decide) (.single (by decide))),
      .input (by decide)⟩
  have hu := ((buffers_followed_to_end haccepted "u").2.2.2.1 (.undefined "v")).2
    (.inl ⟨"v", .single (by decide), by decide, rfl⟩)
  have hring : bufferedNetlist.Circles "w" :=
    ⟨"x", .single (by decide), .head (b := "y") (by decide) (.single (by decide))⟩
  obtain ⟨-, -, -, hfails, hbound⟩ := buffers_followed_to_end haccepted "w"
  refine ⟨haccepted, hp, hu, fun hout => ?_, (hfails _).2 (.inr ⟨hring, rfl⟩), hbound.2 hring⟩
  have htwo := (hout "u").symm.trans hu
  simp at htwo

end LogicCircuit
