import Outline.Proofs.Text.Halt
import Outline.Proofs.Text.Position
import Outline.Proofs.Token.Grammar
import Outline.Proofs.Token.Line

/-!
# Where tokens stand

Tokens stand in the source one behind the other, each where it was read from, and none of them
reaches into the next one. Their positions, and those of faults, are the lines and columns of these
places (`tokenize_places`).
-/

namespace Outline.Token

open Text

variable {s t r u : List Char} {ls ls' indent : List Lexeme}

/-! ## Readers -/

theorem leaves_closedBy {fault : SyntaxFault} {p : List Char → Bool} {x : Reading}
    (hfault : ∀ front rest, p rest = false → fault.Shown front rest) (hx : Leaves s x) :
    Leaves s (closedBy p fault x) := by
  match x with
  | .error h => exact hx
  | .ok (t, r) =>
    obtain ⟨front, hfront⟩ : r <:+ s := hx
    simp only [closedBy]
    split
    · exact ⟨front, hfront⟩
    · rename_i hp
      exact ⟨front, hfront.symm, hfault front r (Bool.eq_false_iff.mpr hp)⟩

theorem leaves_name {x : Reading} (hx : Leaves s x) :
    Leaves s (closedBy endsName .textAfterName x) :=
  leaves_closedBy (fun _ _ hr => (Bool.or_eq_false_iff.mp hr).1) hx

theorem leaves_value {x : Reading} (hx : Leaves s x) :
    Leaves s (closedBy endsValue .textAfterValue x) := leaves_closedBy (fun _ _ hr => hr) hx

theorem leaves_readName (s : List Char) : Leaves s (readName s) := by
  unfold readName
  split
  · rename_i s
    exact (leaves_name (leaves_readVerbatim s)).mono (List.suffix_append ['@', '"'] s)
  · rename_i s
    exact (leaves_name (leaves_readQuoted '"' s)).mono (List.suffix_cons _ s)
  · rename_i s
    exact (leaves_name (leaves_readQuoted '\'' s)).mono (List.suffix_cons _ s)
  · exact List.dropWhile_suffix isBare

theorem leaves_readField (s : List Char) : Leaves s (readField s) := by
  have htext : ∀ {x : Reading}, Leaves s x →
      Leaves s (x >>= fun read => .ok (Field.text read.1, read.2)) :=
    fun hx => Takes.bind hx fun _ _ hr => hr
  unfold readField
  split
  · rename_i s
    exact htext ((leaves_value (leaves_readVerbatim s)).mono (List.suffix_append ['@', '"'] s))
  · rename_i s
    exact htext ((leaves_value (leaves_readQuoted '"' s)).mono (List.suffix_cons _ s))
  · rename_i s
    exact htext ((leaves_value (leaves_readQuoted '\'' s)).mono (List.suffix_cons _ s))
  · dsimp only
    split
    · exact List.dropWhile_suffix isBare
    · exact List.dropWhile_suffix isBare

theorem takes_nextLine (s : List Char) : Takes s (· <:+ s) (nextLine s) := by
  unfold nextLine
  split
  · exact List.nil_suffix
  · exact takes_breakLine s

theorem leaves_readComment (s : List Char) : Leaves s (readComment s) := by
  fun_induction readComment s with
  | case1 => exact met_self rfl
  | case2 s => exact List.suffix_append ['*', '/'] s
  | case3 c s _ ih => exact (ih.prepend [c]).mono (List.suffix_cons c s)

theorem leaves_closeComment (s : List Char) : Leaves s (closeComment (readComment s)) := by
  have hread := leaves_readComment s
  cases hx : readComment s with
  | error h => exact hread.of_error hx
  | ok a =>
    have hrest : Leaves s (.ok (a.1, a.2.dropWhile (· == ' '))) :=
      (List.dropWhile_suffix _).trans (hread.of_ok hx)
    have hclosed : Leaves s (closedBy atLineEnd .textAfterComment
        (.ok (a.1, a.2.dropWhile (· == ' ')))) := leaves_closedBy (fun _ _ hr => hr) hrest
    exact hclosed

/-! ## Lexemes one behind the other -/

/-- The text `s` begins with a token of this kind and this text, and `r` is left behind it. -/
inductive Begins : Kind → List Char → List Char → List Char → Prop
  | space {width : Nat} {r : List Char} (hr : r.head? ≠ some ' ') :
      Begins .space (List.replicate width ' ') (List.replicate width ' ' ++ r) r
  | name {t s r : List Char} (h : readName s = .ok (t, r)) : Begins .name t s r
  | separator {r : List Char} : Begins .separator [':'] (':' :: r) r
  | type {t s r : List Char} (h : readField s = .ok (.tag t, r)) : Begins .type t s r
  | value {t s r : List Char} (h : readField s = .ok (.text t, r)) : Begins .value t s r
  | lineComment {s : List Char} : Begins .lineComment (trim (s.takeWhile (!isBreak ·)))
      ('/' :: '/' :: s) (s.dropWhile (!isBreak ·))
  | blockComment {raw s r : List Char} (h : closeComment (readComment s) = .ok (raw, r)) :
      Begins .blockComment (cleanComment raw) ('/' :: '*' :: s) r
  | lineBreak {s r : List Char} (h : nextLine s = .ok r) : Begins .lineBreak crlf s r

theorem Begins.suffix {k : Kind} (h : Begins k t s r) : r <:+ s := by
  cases h with
  | space => exact List.suffix_append _ _
  | name h => exact (leaves_readName s).of_ok h
  | separator => exact List.suffix_cons _ _
  | type h | value h => exact (leaves_readField s).of_ok h
  | @lineComment s => exact (List.dropWhile_suffix _).trans (List.suffix_append ['/', '/'] s)
  | @blockComment _ s _ h =>
    have hr : r <:+ s := (leaves_closeComment s).of_ok h
    exact hr.trans (List.suffix_append ['/', '*'] s)
  | lineBreak h => exact (takes_nextLine s).of_ok h

/-- From `s` on, each lexeme begins where it says and behind the end of the one in front of it, and
`r` is left behind the last one. -/
inductive Row : List Char → List Lexeme → List Char → Prop
  | done {s r : List Char} (h : r <:+ s) : Row s [] r
  | next {s r u : List Char} {l : Lexeme} {ls : List Lexeme} (hstart : l.start <:+ s)
      (hl : Begins l.kind l.text l.start r) (hls : Row r ls u) : Row s (l :: ls) u

namespace Row

theorem suffix (h : Row s ls r) : r <:+ s := by
  induction h with
  | done h => exact h
  | next hstart hl _ ih => exact ih.trans (hl.suffix.trans hstart)

theorem start_suffix (h : Row s ls r) : ∀ l ∈ ls, l.start <:+ s := by
  induction h with
  | done => exact fun l hl => absurd hl List.not_mem_nil
  | next hstart hl _ ih =>
    have hrest := hl.suffix.trans hstart
    exact List.forall_mem_cons.mpr ⟨hstart, fun l hl => (ih l hl).trans hrest⟩

theorem mono (h : Row s ls r) (hs : s <:+ t) : Row t ls r := by
  cases h with
  | done h => exact .done (h.trans hs)
  | next hstart hl hls => exact .next (hstart.trans hs) hl hls

theorem append (h : Row s ls r) (h' : Row r ls' u) : Row s (ls ++ ls') u := by
  induction h with
  | done hs => exact h'.mono hs
  | next hstart hl _ ih => exact .next hstart hl (ih h')

theorem single {l : Lexeme} (hl : Begins l.kind l.text l.start r) : Row l.start [l] r :=
  .next (List.suffix_refl _) hl (.done (List.suffix_refl _))

end Row

/-- Scanning from `s` gives a row of lexemes, or it stops at a fault in `s`. -/
def Rows (s : List Char) (x : Scanned) : Prop := Takes s (fun a => Row s a.1 a.2) x

theorem rows_nil (s : List Char) : Rows s (.ok ([], s)) := Row.done (List.suffix_refl s)

theorem Row.andThen {x : Scanned} (h : Row s ls r) (hx : Rows r x) : Rows s (do
    let (ls', u) ← x
    return (ls ++ ls', u)) :=
  Takes.bind (Takes.mono h.suffix (fun _ hrow => h.append hrow) hx) fun _ _ hrow => hrow

/-! ## Lines -/

theorem rows_scanLineEnd (s : List Char) : Rows s (scanLineEnd s) := by
  refine (takes_nextLine s).bind fun r hr hs => ?_
  split
  · exact Row.done hs
  · exact Row.single (l := ⟨.lineBreak, crlf, s⟩) (.lineBreak hr)

theorem rows_scanTypedValue (s : List Char) : Rows s (scanTypedValue s) := by
  unfold scanTypedValue
  split
  · rename_i s
    refine Takes.bind ((leaves_readField s).mono (List.suffix_cons ':' s)) fun a ha hs => ?_
    match a with
    | (.tag t, r) =>
      obtain ⟨front, hfront⟩ : r <:+ ':' :: s := hs
      exact ⟨front, hfront.symm, head?_of_readField_tag ha⟩
    | (.text t, r) =>
      exact .next (List.suffix_refl _) .separator (Row.single (l := ⟨.value, t, s⟩) (.value ha))
  · exact rows_nil s

theorem rows_scanValue (s : List Char) : Rows s (scanValue s) := by
  unfold scanValue
  split
  · rename_i s
    refine Takes.bind ((leaves_readField s).mono (List.suffix_cons ':' s)) fun a ha _ => ?_
    match a with
    | (.tag t, r) =>
      have hhead : Row (':' :: s) [⟨.separator, [':'], ':' :: s⟩, ⟨.type, t, s⟩] r :=
        .next (List.suffix_refl _) .separator (Row.single (l := ⟨.type, t, s⟩) (.type ha))
      exact hhead.andThen (rows_scanTypedValue r)
    | (.text t, r) =>
      exact .next (List.suffix_refl _) .separator (Row.single (l := ⟨.value, t, s⟩) (.value ha))
  · exact rows_nil s

theorem rows_scanEntry (s : List Char) : Rows s (scanEntry s) := by
  refine (leaves_readName s).bind fun (name, r₁) hname hs => ?_
  refine ((rows_scanValue r₁).mono hs fun _ h => h).bind fun (value, r₂) _ hvalue => ?_
  refine ((rows_scanLineEnd r₂).mono (hvalue.suffix.trans hs) fun _ h => h).bind
    fun (ending, r₃) _ hending => ?_
  exact Row.next (l := ⟨.name, name, s⟩) (List.suffix_refl s) (.name hname)
    (hvalue.append hending)

theorem rows_finishComment (hi : Row s indent t) {k : Kind} {text : List Char}
    (hk : Begins k text t r) : Rows s (finishComment indent k t text r) := by
  have hr : r <:+ s := hk.suffix.trans hi.suffix
  refine ((takes_nextLine r).mono hr fun _ h => h).bind fun u hu hur => ?_
  split
  · exact Row.done (hur.trans hr)
  · have hline : Row t [⟨k, text, t⟩, ⟨.lineBreak, crlf, r⟩] u :=
      .next (List.suffix_refl t) hk (Row.single (l := ⟨.lineBreak, crlf, r⟩) (.lineBreak hu))
    exact hi.append hline

theorem rows_scanContent (hi : Row s indent t) : Rows s (scanContent indent t) := by
  unfold scanContent
  split
  · rename_i t
    have hs : t <:+ s := (List.suffix_append ['/', '*'] t).trans hi.suffix
    exact ((leaves_closeComment t).mono hs).bind fun (raw, r) hraw _ =>
      rows_finishComment hi (.blockComment hraw)
  · exact rows_finishComment hi .lineComment
  · exact hi.andThen (rows_scanEntry t)

theorem exists_spaces (s : List Char) : ∃ width,
    width = s.length - (s.dropWhile (· == ' ')).length ∧
      s = List.replicate width ' ' ++ s.dropWhile (· == ' ') := by
  refine ⟨_, rfl, ?_⟩
  have hspaces : s.takeWhile (· == ' ') =
      List.replicate (s.length - (s.dropWhile (· == ' ')).length) ' ' := by
    refine List.eq_replicate_iff.mpr ⟨(length_sub_dropWhile _ s).symm, fun c hc => ?_⟩
    simpa using List.mem_takeWhile_imp hc
  rw [← hspaces, List.takeWhile_append_dropWhile]

theorem rows_scanLine (s : List Char) : Rows s (scanLine s) := by
  obtain ⟨width, hwidth, hs⟩ := exists_spaces s
  have hbody : s.dropWhile (· == ' ') <:+ s := List.dropWhile_suffix _
  have hhead : (s.dropWhile (· == ' ')).head? ≠ some ' ' := by
    intro h
    have hnot := List.head?_dropWhile_not (· == ' ') s
    rw [h] at hnot
    simp at hnot
  unfold scanLine
  dsimp only
  rw [← hwidth]
  split
  · exact Row.done List.nil_suffix
  · rename_i c body hcons
    split
    · exact ((takes_breakLine _).mono hbody fun _ h => h).bind
        fun r _ hr => Row.done (hr.trans hbody)
    · split
      · rename_i hmod
        exact ⟨List.replicate width ' ', hs, List.suffix_refl _, hmod⟩
      · refine rows_scanContent ?_
        split
        · exact .done hbody
        · have hspace : Begins .space (List.replicate width ' ')
              (List.replicate width ' ' ++ s.dropWhile (· == ' ')) (s.dropWhile (· == ' ')) :=
            .space hhead
          rw [← hs] at hspace
          exact Row.single (l := ⟨.space, List.replicate width ' ', s⟩) hspace

theorem takes_scan (s : List Char) : Takes s (Row s · []) (scan s) := by
  fun_induction scan s with
  | case1 => exact Row.done (List.suffix_refl [])
  | case2 c s e he => exact (rows_scanLine (c :: s)).of_error he
  | case3 c s ls r hline ih =>
    have hrow : Row (c :: s) ls r := (rows_scanLine (c :: s)).of_ok hline
    exact (ih.mono hrow.suffix fun _ h => h).bind fun ls' _ hrest => hrow.append hrest

/-! ## The loop over the lines -/

/-- The loop over the lines of a text, without a bound: it ends with this result after so many
rounds, in each of which a line is scanned. -/
inductive Rounds : List Char → Nat → Except Halt (List Lexeme) → Prop
  | leave : Rounds [] 0 (.ok [])
  | stop {s : List Char} {h : Halt} (hs : s ≠ []) (hline : scanLine s = .error h) :
      Rounds s 1 (.error h)
  | line {s r : List Char} {ls : List Lexeme} {k : Nat} {x : Except Halt (List Lexeme)}
      (hs : s ≠ []) (hline : scanLine s = .ok (ls, r)) (hrest : Rounds r k x) :
      Rounds s (k + 1) (do
        let rest ← x
        return ls ++ rest)

theorem Rounds.unique {k k' : Nat} {x x' : Except Halt (List Lexeme)} (h : Rounds s k x)
    (h' : Rounds s k' x') : k' = k ∧ x' = x := by
  induction h generalizing k' x' with
  | leave =>
    cases h' with
    | leave => exact ⟨rfl, rfl⟩
    | stop hs | line hs => exact absurd rfl hs
  | stop hs hline =>
    cases h' with
    | leave => exact absurd rfl hs
    | stop _ hline' =>
      rw [hline] at hline'
      cases hline'
      exact ⟨rfl, rfl⟩
    | line _ hline' =>
      rw [hline] at hline'
      cases hline'
  | line hs hline _ ih =>
    cases h' with
    | leave => exact absurd rfl hs
    | stop _ hline' =>
      rw [hline] at hline'
      cases hline'
    | line _ hline' hrest' =>
      rw [hline] at hline'
      cases hline'
      obtain ⟨rfl, rfl⟩ := ih hrest'
      exact ⟨rfl, rfl⟩

/-- A round takes at least a character, so there are no more rounds than characters. -/
theorem exists_rounds (s : List Char) : ∃ k ≤ s.length, Rounds s k (scan s) := by
  fun_induction scan s with
  | case1 => exact ⟨0, Nat.le_refl 0, .leave⟩
  | case2 c s e he =>
    exact ⟨1, Nat.le_add_left 1 _, .stop (List.cons_ne_nil c s) he⟩
  | case3 c s ls r hline ih =>
    obtain ⟨k, hk, hrounds⟩ := ih
    have hlt := length_of_scanLine hline (List.cons_ne_nil c s)
    exact ⟨k + 1, Nat.lt_of_le_of_lt hk hlt, .line (List.cons_ne_nil c s) hline hrounds⟩

/-! ## Places in the source -/

/-- A part of a source, and what stands in front of it and behind it. -/
structure Stretch where
  front : List Char
  written : List Char
  rest : List Char

/-- The token was read from this stretch of the source, and its position is where that begins. -/
structure StandsAt (source : List Char) (t : Token) (p : Stretch) : Prop where
  source_eq : source = p.front ++ (p.written ++ p.rest)
  place : t.position.Behind p.front
  begins : Begins t.kind t.text.toList (p.written ++ p.rest) p.rest

variable {source front : List Char}

theorem standsAt {l : Lexeme} {written : List Char} (hsource : source = front ++ l.start)
    (hstart : written ++ r = l.start) (hl : Begins l.kind l.text l.start r) :
    StandsAt source (l.token source) ⟨front, written, r⟩ where
  source_eq := by rw [hsource, hstart]
  place := by
    rw [Lexeme.token, hsource, before_append]
    exact Position.behind_after front
  begins := by
    rw [Lexeme.token, String.toList_ofList, hstart]
    exact hl

theorem Row.exists_stretches (h : Row s ls r) (hsource : source = front ++ s) :
    ∃ ps, List.Forall₂ (StandsAt source) (ls.map (·.token source)) ps ∧
      ps.Pairwise (fun p q => p.front ++ p.written <+: q.front) ∧
      ∀ p ∈ ps, front <+: p.front := by
  induction h generalizing front with
  | done => exact ⟨[], .nil, .nil, fun p hp => absurd hp List.not_mem_nil⟩
  | @next s r u l ls hstart hl hls ih =>
    obtain ⟨gap, rfl⟩ := hstart
    obtain ⟨written, hwritten⟩ := hl.suffix
    have hfront : source = (front ++ gap) ++ l.start := by rw [hsource, List.append_assoc]
    have hbehind : source = (front ++ gap ++ written) ++ r := by
      rw [hfront, ← hwritten, List.append_assoc _ written]
    obtain ⟨ps, hps, hapart, hfronts⟩ := ih hbehind
    refine ⟨⟨front ++ gap, written, r⟩ :: ps, .cons (standsAt hfront hwritten hl) hps,
      .cons hfronts hapart, fun p hp => ?_⟩
    rcases List.mem_cons.mp hp with rfl | hp
    · exact List.prefix_append front gap
    · rw [List.append_assoc] at hfronts
      exact (List.prefix_append front _).trans (hfronts p hp)

/-- The fault was met when `front` had been read: its place is behind that, and the end of that is
quoted. -/
structure FailsAt (source : List Char) (fault : SyntaxFault) (place : Position)
    (quoted front rest : List Char) : Prop where
  source_eq : source = front ++ rest
  shown : fault.Shown front rest
  place : place.Behind front
  quoted_suffix : quoted <:+ front
  length_quoted : quoted.length = min 40 front.length

theorem exists_failsAt {h : Halt} (hmet : Met source h) :
    ∃ fault place quoted front rest,
      haltError source h = .syntaxError fault place (String.ofList quoted) ∧
        FailsAt source fault place quoted front rest := by
  obtain ⟨front, rfl, hshown⟩ := hmet
  refine ⟨h.fault, Position.after front, context front, front, h.rest, ?_, rfl, hshown,
    Position.behind_after front, context_suffix front, length_context front⟩
  rw [haltError, before_append]

/-- The loop over the lines of a source ends, in one way, after at most as many rounds as the source
has characters. Each token was read from a stretch of the source that begins at its position and
ends in front of the stretch of the next one. An error is placed behind what had been read, and
quotes the last 40 characters of that. -/
theorem tokenize_places (source : String) :
    (∃ k ≤ source.toList.length, ∀ k' x,
      Rounds source.toList k' x ↔ k' = k ∧ x = scan source.toList) ∧
    match tokenize source with
    | .ok ts => ∃ ps, List.Forall₂ (StandsAt source.toList) ts ps ∧
        ps.Pairwise fun p q => p.front ++ p.written <+: q.front
    | .error e => ∃ fault place quoted front rest,
        e = .syntaxError fault place (String.ofList quoted) ∧
          FailsAt source.toList fault place quoted front rest := by
  constructor
  · obtain ⟨k, hk, hrounds⟩ := exists_rounds source.toList
    refine ⟨k, hk, fun k' x => ⟨hrounds.unique, ?_⟩⟩
    rintro ⟨rfl, rfl⟩
    exact hrounds
  · have hscan := takes_scan source.toList
    rw [tokenize, tokenizeChars]
    cases hx : scan source.toList with
    | ok ls =>
      have hrow : Row source.toList ls [] := hscan.of_ok hx
      obtain ⟨ps, hps, hapart, -⟩ := hrow.exists_stretches (List.nil_append _).symm
      exact ⟨ps, hps, hapart⟩
    | error h => exact exists_failsAt (hscan.of_error hx)

end Outline.Token
