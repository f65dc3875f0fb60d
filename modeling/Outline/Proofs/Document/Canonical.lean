import Outline.Proofs.Document.Accepted
import Outline.Proofs.Document.RoundTrip

/-!
# Canonical texts

A text that is accepted is printed in canonical form, and the canonical form is accepted and
means the same. It is printed as it stands unless the document has a decimal zero with a sign:
the sign is written, but not read.
-/

namespace Outline.Document

open Forest Registry
open Token (lineShapes)

variable {r : Registry} {f : Forest} {gr gr' : Grove} {level : Nat}

/-! ## Lines and texts that agree -/

theorem length_lineShapes {v v' : Option (String × String)} (name : String)
    (htag : v'.map Prod.fst = v.map Prod.fst) :
    (lineShapes level name v').length = (lineShapes level name v).length := by
  cases v <;> cases v' <;> simp_all [lineShapes, Token.valueShapes]

theorem lineShapes_inj {v v' : Option (String × String)} {name : String}
    (htag : v'.map Prod.fst = v.map Prod.fst)
    (h : lineShapes level name v' = lineShapes level name v) : v' = v := by
  cases v with
  | none =>
    cases v' with
    | none => rfl
    | some v' => cases htag
  | some v =>
    cases v' with
    | none => cases htag
    | some v' =>
      have hfst : v'.1 = v.1 := Option.some.inj htag
      simp only [lineShapes, Token.valueShapes, Option.map_some, Option.getD_some, hfst,
        List.append_cancel_left_eq, List.cons.injEq, true_and, List.cons_append,
        List.append_assoc, Prod.mk.injEq, List.nil_append, and_true, String.toList_inj] at h
      rw [Option.some.injEq]
      exact Prod.ext hfst h

theorem Grove.shapes_eq_of_text (hg : gr.All fun v => Token.PlainTag (pair r v).1)
    (hg' : gr'.All fun v => Token.PlainTag (pair r v).1) (h : gr'.text r 0 = gr.text r 0) :
    gr'.shapes r 0 = gr.shapes r 0 := by
  obtain ⟨ls, hls, hshapes⟩ := Grove.scans_text hg 0 scans_nil
  obtain ⟨ls', hls', hshapes'⟩ := Grove.scans_text hg' 0 scans_nil
  rw [h, hls] at hls'
  rw [List.append_nil] at hshapes hshapes'
  rw [← hshapes, ← hshapes', Except.ok.inj hls']

/-! ## Groves written and read -/

/-- A grove once it has been written and read. -/
def Grove.reread : Grove → Grove
  | .nil => .nil
  | .plain name value ch sib =>
    .plain name (value.map Document.reread) ch.reread sib.reread
  | .nested name inner ch sib => .nested name inner.reread ch.reread sib.reread

theorem Grove.Rel.eq_reread (h : Rel (Becomes fun v v' => v' = Document.reread v) gr gr') :
    gr' = gr.reread := by
  induction h with
  | nil => rfl
  | @plain name v v' ch ch' sib sib' hv _ _ ihch ihsib =>
    have hvalue : v' = v.map Document.reread := by
      cases hv with
      | none | string => rfl
      | scalar _ h => rw [h, Option.map_some]
    rw [Grove.reread, hvalue, ihch, ihsib]
  | nested _ _ _ ihin ihch ihsib => rw [Grove.reread, ihin, ihch, ihsib]

theorem Grove.All.reread (h : gr.All Exact) : gr.reread.All Exact := by
  induction gr with
  | nil => trivial
  | plain name value ch sib ihch ihsib =>
    refine ⟨fun w hw => ?_, ihch h.2.1, ihsib h.2.2⟩
    obtain ⟨v, hv, rfl⟩ := Option.map_eq_some_iff.mp (Option.mem_def.mp hw)
    exact (h.1 v hv).reread
  | nested name inner ch sib ihin ihch ihsib => exact ⟨ihin h.1, ihch h.2.1, ihsib h.2.2⟩

theorem map_fst_reread (value : Option Value) :
    ((value.map reread).map (pair builtin)).map Prod.fst =
      (value.map (pair builtin)).map Prod.fst := by
  cases value with
  | none => rfl
  | some v => exact congrArg some (pair_reread_fst v)

theorem Grove.length_shapes_reread (gr : Grove) (level : Nat) :
    (gr.reread.shapes builtin level).length = (gr.shapes builtin level).length := by
  induction gr generalizing level with
  | nil => rfl
  | plain name value ch sib ihch ihsib =>
    simp only [reread, shapes, List.length_append, ihch, ihsib,
      length_lineShapes name (map_fst_reread value)]
  | nested name inner ch sib ihin ihch ihsib =>
    have hline : (lineShapes level name
          (some ("node", String.ofList (inner.reread.text builtin 0)))).length =
        (lineShapes level name (some ("node", String.ofList (inner.text builtin 0)))).length :=
      length_lineShapes name rfl
    simp only [reread, shapes, List.length_append, ihch, ihsib, hline]

/-- Where the tokens have not changed, no value has. -/
theorem Grove.All.not_signedZero (h : gr.All Exact)
    (heq : gr.reread.shapes builtin level = gr.shapes builtin level) :
    gr.All fun v => ¬ SignedZero v := by
  induction gr generalizing level with
  | nil => trivial
  | plain name value ch sib ihch ihsib =>
    obtain ⟨hline, hrest⟩ := List.append_inj heq (length_lineShapes name (map_fst_reread value))
    obtain ⟨hch, hsib⟩ := List.append_inj hrest (ch.length_shapes_reread _)
    refine ⟨fun v hv => ?_, ihch h.2.1 hch, ihsib h.2.2 hsib⟩
    obtain rfl := Option.mem_def.mp hv
    exact (pair_reread v).mp (Option.some.inj (lineShapes_inj (map_fst_reread (some v)) hline))
  | nested name inner ch sib ihin ihch ihsib =>
    obtain ⟨hline, hrest⟩ := List.append_inj heq (length_lineShapes name rfl)
    obtain ⟨hch, hsib⟩ := List.append_inj hrest (ch.length_shapes_reread _)
    refine ⟨?_, ihch h.2.1 hch, ihsib h.2.2 hsib⟩
    have hpair := lineShapes_inj (by rfl) hline
    have htext := (Prod.mk.inj (Option.some.inj hpair)).2
    have hplain : ∀ v, Exact v → Token.PlainTag (pair builtin v).1 := fun v hv => hv.plainTag
    exact ihin h.1 (shapes_eq_of_text (h.1.mono hplain) (h.1.reread.mono hplain)
      (String.ofList_inj.mp htext))

/-- The text of a grove changes on the way if and only if a zero in it has a sign. -/
theorem Grove.text_reread (h : gr.All Exact) :
    gr.reread.text builtin 0 = gr.text builtin 0 ↔ gr.All fun v => ¬ SignedZero v := by
  have hplain : ∀ v, Exact v → Token.PlainTag (pair builtin v).1 := fun v hv => hv.plainTag
  constructor
  · intro heq
    exact h.not_signedZero (shapes_eq_of_text (h.mono hplain) (h.reread.mono hplain) heq)
  · intro hzero
    refine Rel.text_eq ?_ 0
    clear h
    induction gr with
    | nil => exact .nil
    | plain name value ch sib ihch ihsib =>
      refine .plain ?_ (ihch hzero.2.1) (ihsib hzero.2.2)
      cases value with
      | none => rfl
      | some v => exact congrArg some ((pair_reread v).mpr (hzero.1 v rfl))
    | nested name inner ch sib ihin ihch ihsib =>
      exact .nested (ihin hzero.1) (ihch hzero.2.1) (ihsib hzero.2.2)

/-- Whatever text without literals of inexact types is accepted, its canonical form is accepted
too and gives an equal document. The canonical form of that is the same text if and only if no
decimal zero in the document has a sign. -/
theorem parse_print_canonical {source : String}
    (hsource : ∀ depth, Avoids inexactTags depth source)
    (hparse : parse builtin.convert false source = .ok f) :
    ∃ gr g, Shows f (f.children root) gr ∧
      parse builtin.convert false (print builtin f false) = .ok g ∧
      structurallyEqual f root g root = true ∧ structurallyEqual g root f root = true ∧
      (print builtin g false = print builtin f false ↔ gr.All fun v => ¬ SignedZero v) := by
  obtain ⟨hf, hfname, hfvalue, gr, hshows, hexact⟩ := exists_shows_of_parse hsource hparse
  obtain ⟨g, gr', hparse', hg, hshows', hrel, hname, hvalue⟩ :=
    hshows.parse_print standard_builtin (hexact.mono fun _ hv => hv.readable)
  obtain ⟨hequal, hequal'⟩ := structurallyEqual_root hf hg hshows hshows'
    (hrel.mono fun _ _ h => h.alike) hname hvalue
  obtain rfl := hrel.eq_reread
  have hsteady : ∀ v, Exact v → Steady builtin v := fun v hv => hv.steady
  refine ⟨gr, g, hshows, hparse', hequal.mpr ⟨hfname, hfvalue⟩, hequal'.mpr ⟨hfname, hfvalue⟩, ?_⟩
  rw [hshows'.print_eq standard_builtin (hexact.reread.mono hsteady),
    hshows.print_eq standard_builtin (hexact.mono hsteady), String.ofList_inj]
  exact Grove.text_reread hexact

theorem avoids_sloppy (depth : Nat) :
    Avoids inexactTags depth "a:bool:yes\nn:node:\"b:int:+007\"" := by
  have hinner : literals "b:int:+007" = [("int", "+007")] := by decide +kernel
  have houter : literals "a:bool:yes\nn:node:\"b:int:+007\"" =
      [("bool", "yes"), ("node", "b:int:+007")] := by decide +kernel
  have hbelow : ∀ depth, Avoids inexactTags depth "b:int:+007" := by
    rintro (_ | depth)
    · trivial
    · rw [Avoids, hinner]
      simp [inexactTags]
  cases depth with
  | zero => trivial
  | succ depth =>
    rw [Avoids, houter]
    simpa [inexactTags] using hbelow depth

theorem avoids_rounded_to_zero (depth : Nat) :
    Avoids inexactTags depth "a:decimal:-0.4e-28" := by
  have hliterals : literals "a:decimal:-0.4e-28" = [("decimal", "-0.4e-28")] := by decide +kernel
  cases depth with
  | zero => trivial
  | succ depth =>
    rw [Avoids, hliterals]
    simp [inexactTags]

/-- A text with a sloppy number in a nested document is stable once it is canonical; a negative
number that is rounded to zero is not. -/
theorem parse_print_canonical_signed_zero :
    (∃ f gr g, parse builtin.convert false "a:bool:yes\nn:node:\"b:int:+007\"" = .ok f ∧
      Shows f (f.children root) gr ∧
      parse builtin.convert false (print builtin f false) = .ok g ∧
      structurallyEqual f root g root = true ∧ structurallyEqual g root f root = true ∧
      print builtin g false = print builtin f false ∧ gr.All fun v => ¬ SignedZero v) ∧
    (∃ f gr g, parse builtin.convert false "a:decimal:-0.4e-28" = .ok f ∧
      Shows f (f.children root) gr ∧
      parse builtin.convert false (print builtin f false) = .ok g ∧
      structurallyEqual f root g root = true ∧ structurallyEqual g root f root = true ∧
      print builtin g false ≠ print builtin f false ∧ ¬ gr.All fun v => ¬ SignedZero v) := by
  have hrun : ∀ (source : String) (stable : Bool), (∀ depth, Avoids inexactTags depth source) →
      (parse builtin.convert false source).toOption.map (fun f =>
        (parse builtin.convert false (print builtin f false)).toOption.map fun g =>
          print builtin g false == print builtin f false) = some (some stable) →
      ∃ f gr g, parse builtin.convert false source = .ok f ∧ Shows f (f.children root) gr ∧
        parse builtin.convert false (print builtin f false) = .ok g ∧
        structurallyEqual f root g root = true ∧ structurallyEqual g root f root = true ∧
        ((print builtin g false = print builtin f false) ↔ stable = true) ∧
        (gr.All (fun v => ¬ SignedZero v) ↔ stable = true) := by
    intro source stable hsource htexts
    cases hparse : parse builtin.convert false source with
    | error e =>
      rw [hparse] at htexts
      cases htexts
    | ok f =>
      obtain ⟨gr, g, hshows, hparse', hequal, hequal', htext⟩ :=
        parse_print_canonical hsource hparse
      simp only [hparse, Except.toOption, Option.map_some, hparse', Option.some.injEq] at htexts
      have hprint : print builtin g false = print builtin f false ↔ stable = true := by
        rw [← htexts, beq_iff_eq]
      exact ⟨f, gr, g, rfl, hshows, hparse', hequal, hequal', hprint, htext.symm.trans hprint⟩
  constructor
  · obtain ⟨f, gr, g, hf, hshows, hg, hequal, hequal', hprint, hall⟩ :=
      hrun _ true avoids_sloppy (by decide +kernel)
    exact ⟨f, gr, g, hf, hshows, hg, hequal, hequal', hprint.mpr rfl, hall.mpr rfl⟩
  · obtain ⟨f, gr, g, hf, hshows, hg, hequal, hequal', hprint, hall⟩ :=
      hrun _ false avoids_rounded_to_zero (by decide +kernel)
    exact ⟨f, gr, g, hf, hshows, hg, hequal, hequal', by simp [hprint], by simp [hall]⟩

end Outline.Document
