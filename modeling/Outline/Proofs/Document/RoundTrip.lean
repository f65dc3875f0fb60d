import Outline.Proofs.Document.Scalars
import Outline.Proofs.Forest.Reachable

/-!
# Printed documents read back

What a forest shows below its root is printed, read into a new forest, and shown there again.
The root itself is not printed, so it comes back without name and value.
-/

namespace Outline.Document

open Forest Registry

variable {r : Registry} {f : Forest} {gr gr' : Grove}

theorem Shows.print_eq (hr : Standard r) (h : Shows f (f.children root) gr)
    (hg : gr.All (Steady r)) : print r f false = String.ofList (gr.text r 0) := by
  rw [print, printNodes, ShowsFrom.print_eq hr h hg h.height_le]

theorem Shows.height_lt (hf : f.WellFormed) (h : Shows f (f.children root) gr)
    (hroot : f.value root = none) : gr.height < f.size := by
  have hall : Shows f [root] (.plain (f.name root) (f.value root) gr .nil) :=
    .plain (Nat.zero_le _) hf.root_lt (by simp [hroot]) h .nil
  have hle := hall.height_le
  simp only [Grove.height] at hle
  omega

/-- Only a root without name and value is equal to the root of a document that was read, and it
makes no difference which of the two comes first. -/
theorem structurallyEqual_root {g : Forest} (hf : f.WellFormed) (hg : g.WellFormed)
    (h : Shows f (f.children root) gr) (h' : Shows g (g.children root) gr')
    (hrel : Grove.Rel Alike gr gr') (hname : g.name root = "") (hvalue : g.value root = none) :
    (structurallyEqual f root g root = true ↔ f.name root = "" ∧ f.value root = none) ∧
      (structurallyEqual g root f root = true ↔ f.name root = "" ∧ f.value root = none) := by
  have hsame : ∀ {depth}, 0 < depth → (f.value root = none → gr.height < depth) →
      (sameTree f g depth root root = true ↔ f.name root = "" ∧ f.value root = none) := by
    intro depth hpos hheight
    obtain ⟨d, rfl⟩ := Nat.exists_eq_add_one.mpr hpos
    constructor
    · intro hsame
      simp only [sameTree, hname, hvalue, Bool.and_eq_true, beq_iff_eq] at hsame
      obtain ⟨⟨hn, hv⟩, -⟩ := hsame
      refine ⟨hn, ?_⟩
      cases hval : f.value root with
      | none => rfl
      | some v =>
        rw [hval] at hv
        split at hv <;> simp_all
    · rintro ⟨hn, hv⟩
      have hlt := hheight hv
      exact sameTree_of_alike (hn.trans hname.symm) (by simp [hv]) (.inl ⟨hv, hvalue⟩)
        (ShowsFrom.allPairs_sameTree h h' hrel (by omega))
  constructor
  · exact hsame (Nat.zero_lt_of_lt hf.root_lt) fun hv => h.height_lt hf hv
  · rw [structurallyEqual, sameTree_comm]
    have hlt := h'.height_lt hg hvalue
    rw [hrel.height_eq] at hlt
    exact hsame (Nat.zero_lt_of_lt hg.root_lt) fun _ => hlt

/-- What is printed is read again, with the values that its values are read back to. -/
theorem Shows.parse_print {T : Value → Value → Prop} (hr : Standard r)
    (h : Shows f (f.children root) gr) (hgr : gr.All (Readable r T)) :
    ∃ g gr', parse r.convert false (print r f false) = .ok g ∧ g.WellFormed ∧
      Shows g (g.children root) gr' ∧ Grove.Rel (Becomes T) gr gr' ∧
      g.name root = "" ∧ g.value root = none := by
  have hplain := hgr.mono fun _ hv => hv.plainTag hr
  have hsteady := hgr.mono fun _ hv => hv.steady hr
  have hbuilds : Builds r T gr := builds_of_readable hr hgr
  obtain ⟨g, new, gr', hparse, hgrown, hshow, hrel⟩ := Builds.parseInto hbuilds hplain
    (fun k _ => serves_convert k) wellFormed_empty wellFormed_empty.root_lt
  refine ⟨g, gr', ?_, hgrown.wf, ?_, hrel, hgrown.name root (by decide),
    hgrown.value root (by decide)⟩
  · rw [h.print_eq hr hsteady, parse, hparse]
  · have hchildren : g.children root = new := by
      rw [hgrown.children root (by decide), if_pos rfl]
      rfl
    rw [hchildren]
    exact hshow.shows

/-! ## Values that are written as before -/

/-- The value is written in every forest in the one way in which the other one is written. -/
def Rewrites (r : Registry) (v v' : Value) : Prop := Steady r v' ∧ pair r v' = pair r v

/-- A text, or a scalar that is read back, in every forest, as an equal value that is written in
the same way. -/
def Faithful (r : Registry) (v : Value) : Prop := Readable r (Rewrites r) v

theorem Becomes.rewrites (hr : Standard r) {v v' : Option Value}
    (h : Becomes (Rewrites r) v v') :
    v'.map (pair r) = v.map (pair r) ∧ ∀ w ∈ v', Steady r w := by
  cases h with
  | none => exact ⟨rfl, by simp⟩
  | string s =>
    refine ⟨rfl, ?_⟩
    rintro w ⟨⟩
    exact hr.steady_string s
  | scalar heq h =>
    refine ⟨congrArg some h.2, ?_⟩
    rintro w ⟨⟩
    exact h.1

theorem lineText_congr {describe : Value → String × String} {v v' : Option Value} (level : Nat)
    (name : String) (h : v'.map describe = v.map describe) :
    lineText describe false level name v' = lineText describe false level name v := by
  cases v <;> cases v' <;> simp_all [lineText, nameText]

theorem Grove.Rel.text_eq (h : Rel (fun v v' => v'.map (pair r) = v.map (pair r)) gr gr')
    (level : Nat) : gr'.text r level = gr.text r level := by
  induction h generalizing level with
  | nil => rfl
  | plain hv _ _ ihch ihsib => simp only [text, lineText_congr level _ hv, ihch, ihsib]
  | nested _ _ _ ihin ihch ihsib => simp only [text, ihin, ihch, ihsib]

/-- A printed document reads back: the text is accepted, the result and the document are equal
if the root of the document has neither name nor value, and it is printed in the same way. -/
theorem print_round_trip (hr : Standard r) (hf : f.WellFormed)
    (hshows : Shows f (f.children root) gr) (hgr : gr.All (Faithful r)) :
    ∃ g, parse r.convert false (print r f false) = .ok g ∧
      (structurallyEqual f root g root = true ↔ f.name root = "" ∧ f.value root = none) ∧
      (structurallyEqual g root f root = true ↔ f.name root = "" ∧ f.value root = none) ∧
      print r g false = print r f false := by
  obtain ⟨g, gr', hparse, hg, hshows', hrel, hname, hvalue⟩ := hshows.parse_print hr hgr
  have hsteady : gr.All (Steady r) := hgr.mono fun _ hv => Readable.steady hr hv
  have hsteady' : gr'.All (Steady r) := hrel.all_right fun _ _ h => (h.rewrites hr).2
  have htext : gr'.text r 0 = gr.text r 0 := (hrel.mono fun _ _ h => (h.rewrites hr).1).text_eq 0
  obtain ⟨hequal, hequal'⟩ := structurallyEqual_root hf hg hshows hshows'
    (hrel.mono fun _ _ h => h.alike) hname hvalue
  refine ⟨g, hparse, hequal, hequal', ?_⟩
  rw [hshows'.print_eq hr hsteady', hshows.print_eq hr hsteady, htext]

/-- A document with a scalar, a text of several lines and a nested tree. -/
theorem print_round_trip_nested :
    let f := (((((((((empty.create "a: b" (some (.bool true))).2.create "" none).2.create ""
      none).2.create "x" (some (.string "p\r\nq"))).2.create "n" (some (.node 3))).2.add root
      1).add 1 2).add 3 4).add root 5)
    ∃ g, parse builtin.convert false (print builtin f false) = .ok g ∧
      structurallyEqual f root g root = true ∧ structurallyEqual g root f root = true ∧
      print builtin g false = print builtin f false := by
  intro f
  have hf : f.WellFormed := by
    refine (Edited.extends ?_ wellFormed_empty).1
    exact ((((((((Edited.create empty "a: b" _).trans (.create _ "" _)).trans
      (.create _ "" _)).trans (.create _ "x" _)).trans (.create _ "n" _)).trans
      (.add (by decide) (by decide))).trans (.add (by decide) (by decide))).trans
      (.add (by decide) (by decide))).trans (.add (by decide) (by decide))
  have hinner : Shows f (f.children 3) (.plain "x" (some (.string "p\r\nq")) .nil .nil) :=
    .plain (by decide) (by decide) (fun c h => by cases h) .nil .nil
  have hshows : Shows f (f.children root) (.plain "a: b" (some (.bool true))
      (.plain "" none .nil .nil) (.nested "n" (.plain "x" (some (.string "p\r\nq")) .nil .nil)
        .nil .nil)) :=
    .plain (by decide) (by decide) (fun c h => by cases h)
      (.plain (by decide) (by decide) (fun c h => by cases h) .nil .nil)
      (.nested (by decide) (by decide) rfl (by decide) (by decide) rfl rfl hinner .nil .nil)
  have hback : ReadsBack builtin (.bool true) (.bool true) :=
    readsBack_builtin (k := .bool) rfl (by decide) (by decide) rfl rfl
  have hbool : Faithful builtin (.bool true) := .inr (hback.readsTo ⟨fun children => rfl, rfl⟩)
  have hall : (Grove.plain "a: b" (some (.bool true)) (.plain "" none .nil .nil)
      (.nested "n" (.plain "x" (some (.string "p\r\nq")) .nil .nil) .nil .nil)).All
        (Faithful builtin) := by
    refine ⟨?_, ⟨?_, trivial, trivial⟩, ⟨?_, trivial, trivial⟩, trivial, trivial⟩
    · rintro v ⟨⟩
      exact hbool
    · rintro v ⟨⟩
    · rintro v ⟨⟩
      exact .inl ⟨_, rfl⟩
  obtain ⟨g, hparse, hequal, hequal', hprint⟩ := print_round_trip standard_builtin hf hshows hall
  exact ⟨g, hparse, hequal.mpr ⟨rfl, rfl⟩, hequal'.mpr ⟨rfl, rfl⟩, hprint⟩

/-- What stands in the way of a round trip: a name of the root, tags that do not stand bare in
front of a text, other entries for texts or nested trees, a reader that renames a node that is
there, a reader that refuses in the forest of a document what it takes in a new one, and a writer
that looks at other nodes. -/
theorem print_round_trip_limits :
    (let f := empty.setName root "x";
      f.WellFormed ∧ Shows f (f.children root) .nil ∧
        (parse builtin.convert false (print builtin f false)).toOption.map
          (fun g => structurallyEqual f root g root) = some false) ∧
    (∀ tag ∈ ["", "string", "a:b", " a", "'a"],
      let v : Value := .custom ⟨.named "Pair", "1,x"⟩;
      let r := builtin.registerType (.named "Pair") tag Value.Custom.display fun raw =>
        .ok ⟨.named "Pair", raw⟩;
      let f := (empty.create "n" (some v)).2.add root 1;
      (∀ g, r.convert tag "1,x" g = (.ok v, g)) ∧ describe r f v = (tag, "1,x") ∧
        (parse r.convert false (print r f false)).toOption.any
          (fun g => structurallyEqual f root g root) = false) ∧
    (let r := builtin.registerType (.builtin .string) "str" Value.Custom.display fun raw =>
        .ok ⟨.builtin .string, raw⟩;
      let f := (empty.create "n" (some (.string "s"))).2.add root 1;
      (parse r.convert false (print r f false)).toOption.any
          (fun g => structurallyEqual f root g root) = false) ∧
    (let r := builtin.registerType (.named "Opaque") "node" Value.Custom.display fun raw =>
        .ok ⟨.named "Opaque", raw⟩;
      let f := ((empty.create "" none).2.create "n" (some (.node 1))).2.add root 2;
      (parse r.convert false (print r f false)).toOption.any
          (fun g => structurallyEqual f root g root) = false) ∧
    (let v : Value := .custom ⟨.named "Flag", "on"⟩;
      let r := builtin.register (.named "Flag") "flag" (fun _ v => v.display)
        fun _ _ f => (.ok v, f.setName 1 "z");
      let f := (empty.create "n" (some v)).2.add root 1;
      (∀ g, ∃ h, r.convert "flag" "on" g = (.ok v, h)) ∧ describe r f v = ("flag", "on") ∧
        (parse r.convert false (print r f false)).toOption.map
          (fun g => structurallyEqual f root g root) = some false) ∧
    (let v : Value := .custom ⟨.named "Flag", "on"⟩;
      let r := builtin.register (.named "Flag") "flag" (fun _ v => v.display)
        fun _ raw f => if f.size = 1 then (.ok v, f)
          else (.error (.invalidValue "flag" raw .malformed), f);
      let f := (empty.create "n" (some v)).2.add root 1;
      r.convert "flag" "on" empty = (.ok v, empty) ∧ describe r f v = ("flag", "on") ∧
        (parse r.convert false (print r f false)).isOk = false) ∧
    (let v : Value := .custom ⟨.named "Flag", "on"⟩;
      let r := builtin.register (.named "Flag") "flag" (fun context _ => context.children 2)
        fun _ _ f => (.ok v, f);
      let f := (((empty.create "n" (some v)).2.create "" none).2.create "x" none).2.add root 1
        |>.add 2 3;
      (∀ g, r.convert "flag" "x\r\n" g = (.ok v, g)) ∧ describe r f v = ("flag", "x\r\n") ∧
        (parse r.convert false (print r f false)).toOption.map
          (fun g => print r g false == print r f false) = some false) := by
  refine ⟨⟨wellFormed_empty.setName _ _, .nil, by decide +kernel⟩, ?_, by decide +kernel,
    by decide +kernel, ⟨fun g => ⟨_, rfl⟩, by decide +kernel, by decide +kernel⟩,
    ⟨rfl, by decide +kernel, by decide +kernel⟩,
    ⟨fun g => rfl, by decide +kernel, by decide +kernel⟩⟩
  intro tag htag
  simp only [List.mem_cons, List.not_mem_nil, or_false] at htag
  rcases htag with rfl | rfl | rfl | rfl | rfl
  · exact ⟨fun g => rfl, by decide +kernel, by decide +kernel⟩
  · exact ⟨fun g => rfl, by decide +kernel, by decide +kernel⟩
  · exact ⟨fun g => rfl, by decide +kernel, by decide +kernel⟩
  · exact ⟨fun g => rfl, by decide +kernel, by decide +kernel⟩
  · exact ⟨fun g => rfl, by decide +kernel, by decide +kernel⟩

end Outline.Document
