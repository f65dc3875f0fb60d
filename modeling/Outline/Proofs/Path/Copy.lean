import Outline.Command
import Outline.Proofs.Document.Reached
import Outline.Proofs.Path.Mirror

/-!
# Evaluation of copies

A nested tree and its copy are written in the same text, as long as writers show nothing of a
nested tree but its text. So a tree and its copy mirror each other in the sense of evaluation,
which therefore does not depend on where in the forest the nodes of a tree were made.
-/

namespace Outline

open Document Forest List

/-! ## Writers -/

/-- A writer that shows nothing of a nested tree but the text of its children. -/
def BlindWriter (write : Registry.Writer) : Prop :=
  ∀ (context : Registry.WriteContext) (c c' : NodeId), context.children c = context.children c' →
    write context (.node c) = write context (.node c')

theorem blindWriter_builtin : ∀ entry ∈ Registry.builtin.writers, BlindWriter entry.2.2 := by
  intro entry h
  simp only [Registry.builtin, mem_append, mem_map, mem_singleton] at h
  rcases h with ⟨kind, -, rfl⟩ | rfl
  · exact fun _ _ _ _ => rfl
  · exact fun _ _ _ h => h

variable {r : Registry}

theorem blindWriter_registerType (hw : ∀ entry ∈ r.writers, BlindWriter entry.2.2)
    (type : Value.TypeKey) (tag : String) (write : Value.Custom → String)
    (read : String → Except String Value.Custom) :
    ∀ entry ∈ (r.registerType type tag write read).writers, BlindWriter entry.2.2 := by
  intro entry h
  rw [Registry.registerType, Registry.register, Registry.insert] at h
  rcases mem_cons.mp h with rfl | h
  · exact fun _ _ _ _ => rfl
  · exact hw entry (mem_filter.mp h).1

theorem describeWith_node (hw : ∀ entry ∈ r.writers, BlindWriter entry.2.2)
    (children : NodeId → String) {c c' : NodeId} (h : children c = children c') :
    r.describeWith children (.node c) = r.describeWith children (.node c') := by
  have htype : (Value.node c).type = (Value.node c').type := rfl
  rw [Registry.describeWith, Registry.describeWith, Registry.lookup, Registry.lookup, htype]
  cases hwrite : r.writers.lookup (Value.node c').type with
  | none => rfl
  | some entry =>
    obtain ⟨l, l', hl, -⟩ := lookup_eq_some_iff.mp hwrite
    have hblind := hw ((Value.node c').type, entry) (by simp [hl])
    simp only [Option.map_some, Option.getD_some]
    rw [hblind ⟨children, r.tags⟩ c c' h]

/-! ## The text of copies -/

variable {f : Forest} {a b x y : NodeId} {low : Nat}

theorem printTree_copy (hw : ∀ entry ∈ r.writers, BlindWriter entry.2.2) (n : Nat)
    (comments : Bool) (level : Nat) (h : CopyOf f f low x y) :
    printTree r f n comments level x = printTree r f n comments level y := by
  induction n generalizing comments level x y with
  | zero => rfl
  | succ n ih =>
    have hbelow := flatMap_eq_of_rel h.children fun x y hxy => ih comments (level + 1) hxy
    rw [printTree, printTree, hbelow, h.name_eq]
    congr 2
    rcases h.value with heq | ⟨c, c', hx, hy, hc⟩
    · rw [heq]
    · have hnested := flatMap_eq_of_rel hc.children fun x y hxy => ih false 0 hxy
      have htext := describeWith_node hw (fun container =>
        String.ofList ((f.children container).flatMap (printTree r f n false 0)))
        (congrArg String.ofList hnested)
      rw [hx, hy]
      simp only [lineText, nameText, Option.map_some, Option.isNone_some, htext]

theorem describe_copy (hw : ∀ entry ∈ r.writers, BlindWriter entry.2.2)
    (h : CopyOf f f low x y) : describe r f (.node x) = describe r f (.node y) := by
  refine describeWith_node hw _ ?_
  have htext := flatMap_eq_of_rel h.children fun x y hxy => printTree_copy hw f.size false 0 hxy
  rw [printNodes, printNodes, htext]

namespace Path

theorem mirror_copy (hw : ∀ entry ∈ r.writers, BlindWriter entry.2.2) (hf : f.WellFormed)
    (hcopy : CopyOf f f low a b) (ha : f.parent a = none) (hb : f.parent b = none)
    (houtside : ∀ id e, f.Within id a → f.value id = some (.expression e) →
      Step.dereference ∉ e.steps) : (r.world f).Mirror (Counterparts f a b) where
  toMirror := hcopy.mirror hf ha hb
  value h := by
    rcases (h.copyOf hcopy).value with heq | ⟨c, c', hx, hy, hc⟩
    · exact .inl heq
    · exact .inr ⟨c, c', hx, hy, congrArg Prod.snd (describe_copy hw hc)⟩
  outside := by
    rintro x y e ⟨path, hx, -⟩ he
    exact houtside x e (hf.within_of_path hx) he

/-- Evaluation does not depend on how nodes are numbered. Every node of a tree that stands alone
has a counterpart in a copy of the tree, in the same place. From a node and from its
counterpart, an expression leads to counterparts, or it fails with the same error. The
expressions must not go into nested trees, where nodes have no place in the tree. -/
theorem evaluate_deepClone (hw : ∀ entry ∈ r.writers, BlindWriter entry.2.2)
    (hf : f.WellFormed) (hnested : ∀ id c, f.value id = some (.node c) → c < f.size)
    (hcircle : ∀ id route, f.follow id route = some id → route = [])
    (ha : a < f.size) (halone : f.parent a = none)
    (houtside : ∀ id e, f.Within id a → f.value id = some (.expression e) →
      Step.dereference ∉ e.steps) :
    (∀ n, f.Within n a → ∃ n', Counterparts (f.deepClone a).2 a (f.deepClone a).1 n n') ∧
      ∀ n n' e, Counterparts (f.deepClone a).2 a (f.deepClone a).1 n n' →
        Step.dereference ∉ e.steps →
        SameOutcome (Forall₂ (Counterparts (f.deepClone a).2 a (f.deepClone a).1))
          ((r.world (f.deepClone a).2).evaluate e n).result
          ((r.world (f.deepClone a).2).evaluate e n').result := by
  obtain ⟨hadds, hcopy⟩ := copies_deepClone hf hnested hcircle ha
  have hgrown := hadds.grown
  have hsource := hcopy.source (hf.turn_lt hnested) hgrown ha
  have hold : (f.deepClone a).2.parent a = none := by rw [hgrown.parent a ha, halone]
  have hnew := hadds.parent_eq_none hf
  have hmirror := mirror_copy hw hgrown.wf hsource hold hnew fun id e hid he => by
    obtain ⟨hlt, hid⟩ := hgrown.within hf ha hid
    rw [hgrown.value id hlt] at he
    exact houtside id e hid he
  refine ⟨fun n hn => ?_, fun n n' e h he => hmirror.evaluate he h⟩
  obtain ⟨n', hn', -⟩ :=
    hmirror.exists_of_within hgrown.wf ⟨[], rfl, rfl⟩ (hgrown.within_mono hn)
  exact ⟨n', hn'⟩

/-- A nested tree is told by its text, and the name to look for is what an expression leads to.
The copy of the nested tree is made before the node that holds it. -/
theorem evaluate_deepClone_nested :
    let e : Expression := ⟨[.root, .children, .extrapolation 0, .valueEquals "x:y\r\n"]⟩
    ∃ f, parse Registry.builtin.convert false
        "name:bar\r\nbar:node:\"x:y\"\r\npick\r\n   :x:../*/name" = .ok f ∧
      ((Registry.builtin.world (f.deepClone root).2).evaluate e 5).result = .ok [2] ∧
      ((Registry.builtin.world (f.deepClone root).2).evaluate e 12).result = .ok [11] ∧
      SameOutcome (Forall₂ (Counterparts (f.deepClone root).2 root (f.deepClone root).1))
        ((Registry.builtin.world (f.deepClone root).2).evaluate e 5).result
        ((Registry.builtin.world (f.deepClone root).2).evaluate e 12).result := by
  intro e
  have hread : (parse Registry.builtin.convert false
      "name:bar\r\nbar:node:\"x:y\"\r\npick\r\n   :x:../*/name").toOption.any (fun f =>
        f.parent root = none ∧
        (∀ id < f.size, id = 6 ∨ (f.value id).all (·.type ≠ .builtin .expression)) ∧
        f.value 6 = some (.expression ⟨[.root, .children, .named "name"]⟩) ∧
        (f.deepClone root).2.follow root [.child 2] = some 5 ∧
        (f.deepClone root).2.follow (f.deepClone root).1 [.child 2] = some 12 ∧
        ((Registry.builtin.world (f.deepClone root).2).evaluate e 5).result = .ok [2] ∧
        ((Registry.builtin.world (f.deepClone root).2).evaluate e 12).result = .ok [11]) =
      true := by decide +kernel
  cases h : parse Registry.builtin.convert false
      "name:bar\r\nbar:node:\"x:y\"\r\npick\r\n   :x:../*/name" with
  | error e =>
    rw [h] at hread
    cases hread
  | ok f =>
    rw [h] at hread
    obtain ⟨halone, hothers, hsix, hx, hy, hold, hnew⟩ := of_decide_eq_true hread
    obtain ⟨p, s, hlayout⟩ := exists_layout_of_parse tidyReader_builtin h
    have hadds := hlayout.adds
    have houtside : ∀ id e, f.Within id root → f.value id = some (.expression e) →
        Step.dereference ∉ e.steps := by
      intro id e _ he
      have hlt : id < f.size := by
        by_contra hge
        rw [value_of_size_le (Nat.le_of_not_lt hge)] at he
        cases he
      rcases hothers id hlt with rfl | hother
      · rw [hsix] at he
        cases he
        decide
      · rw [he] at hother
        cases hother
    obtain ⟨-, hcopy⟩ := evaluate_deepClone blindWriter_builtin hadds.grown.wf
      (fun id c h => hadds.stays_of_empty (turn_inside.mpr h)) hadds.not_circle
      hadds.grown.wf.root_lt halone houtside
    exact ⟨f, rfl, hold, hnew, hcopy 5 12 e ⟨[2], hx, hy⟩ (by decide)⟩

end Path
end Outline
