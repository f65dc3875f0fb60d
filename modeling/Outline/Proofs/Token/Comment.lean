import Outline.Proofs.Text.Comment
import Outline.Proofs.Token.Written

/-!
# Comments among lines

What the tokens of comments are like, and how a comment that is written is scanned: as it is read
back, at its level, whatever follows it. Only a carriage return in a comment of one line is
refused.
-/

namespace Outline.Token

open Text Document

variable {s r t rest : List Char} {ls indents : List Lexeme} {level : Nat}

/-! ## Comments that are scanned -/

/-- The comments among lexemes are like comments that are read. -/
def KeptComments (ls : List Lexeme) : Prop := ∀ l ∈ ls, l.kind.isComment = true → Kept l.text

theorem KeptComments.of_not_isComment (h : ∀ l ∈ ls, l.kind.isComment = false) :
    KeptComments ls := fun l hl hcomment => by simp [h l hl] at hcomment

theorem KeptComments.append {ls' : List Lexeme} (h : KeptComments ls) (h' : KeptComments ls') :
    KeptComments (ls ++ ls') := by
  intro l hl
  rcases List.mem_append.mp hl with hl | hl
  · exact h l hl
  · exact h' l hl

theorem keptComments_scanEntry (h : scanEntry s = .ok (ls, r)) : KeptComments ls := by
  obtain ⟨⟨name, r₁⟩, -, h⟩ := bind_eq_ok.mp h
  obtain ⟨⟨vs, r₂⟩, hv, h⟩ := bind_eq_ok.mp h
  obtain ⟨⟨es, r₃⟩, he, h⟩ := bind_eq_ok.mp h
  cases pure_eq_ok.mp h
  obtain ⟨r', -, he⟩ := bind_eq_ok.mp he
  cases pure_eq_ok.mp he
  obtain ⟨literal, hwords⟩ := words_scanValue [] name s hv
  refine .of_not_isComment fun l hl => ?_
  rcases List.mem_append.mp hl with hl | hl
  · exact hwords.not_isComment _ (List.mem_map_of_mem hl)
  · split at hl
    · cases hl
    · rw [List.mem_singleton.mp hl]
      rfl

theorem keptComments_finishComment {kind : Kind} (hi : KeptComments indents)
    (h : finishComment indents kind s t r = .ok (ls, rest)) (ht : t ≠ [] → Kept t) :
    KeptComments ls := by
  obtain ⟨next, -, h⟩ := bind_eq_ok.mp h
  cases pure_eq_ok.mp h
  split
  · exact .of_not_isComment (by simp)
  · rename_i hne
    refine hi.append fun l hl hcomment => ?_
    simp only [List.mem_cons, List.not_mem_nil, or_false] at hl
    rcases hl with rfl | rfl
    · exact ht (by simpa using hne)
    · cases hcomment

theorem keptComments_scanContent (hi : KeptComments indents)
    (h : scanContent indents s = .ok (ls, r)) : KeptComments ls := by
  unfold scanContent at h
  split at h
  · obtain ⟨⟨raw, r₁⟩, hclose, h⟩ := bind_eq_ok.mp h
    refine keptComments_finishComment hi h fun hne => ?_
    unfold closeComment at hclose
    split at hclose
    · rename_i raw' r' hread
      obtain ⟨rfl, -⟩ := Prod.mk.inj (Except.ok.inj (closedBy_eq_ok.mp hclose).1)
      exact kept_cleanComment hread hne
    · cases hclose
  · rename_i s'
    refine keptComments_finishComment hi h fun hne => kept_of_not_mem (fun hmem => ?_) hne
    have hbreak := List.mem_takeWhile_imp hmem
    cases hbreak
  · obtain ⟨⟨ls', r₁⟩, he, h⟩ := bind_eq_ok.mp h
    cases pure_eq_ok.mp h
    exact hi.append (keptComments_scanEntry he)

theorem keptComments_scanLine (h : scanLine s = .ok (ls, r)) : KeptComments ls := by
  have hnil : KeptComments [] := .of_not_isComment (by simp)
  unfold scanLine at h
  dsimp only at h
  split at h
  · cases h
    exact hnil
  · split at h
    · obtain ⟨r', -, h⟩ := bind_eq_ok.mp h
      cases pure_eq_ok.mp h
      exact hnil
    · split at h
      · cases h
      · refine keptComments_scanContent ?_ h
        split
        · exact hnil
        · exact .of_not_isComment (by simp [Kind.isComment])

theorem keptComments_scan (h : scan s = .ok ls) : KeptComments ls := by
  fun_induction scan s generalizing ls with
  | case1 =>
    cases h
    exact .of_not_isComment (by simp)
  | case2 => cases h
  | case3 c s ls' r hline ih =>
    obtain ⟨rest, hrest, h⟩ := bind_eq_ok.mp h
    cases pure_eq_ok.mp h
    exact (keptComments_scanLine hline).append (ih hrest)

theorem kept_of_tokenize {source : String} {ts : List Token} (h : tokenize source = .ok ts) :
    ∀ t ∈ ts, t.isComment = true → Kept t.text.toList := by
  unfold tokenize tokenizeChars at h
  split at h
  · rename_i ls hls
    cases h
    intro t ht hcomment
    obtain ⟨l, hl, rfl⟩ := List.mem_map.mp ht
    rw [Lexeme.token, String.toList_ofList]
    exact keptComments_scan hls l hl hcomment
  · cases h

/-! ## Comments that are written -/

theorem scan_comment {w : List Char} (hw : commentText level t = crlf ++ (indent level ++ '/' :: w))
    (rest : List Char) :
    ∃ start, (∀ ls, scanContent (indentLexemes level start) ('/' :: w ++ crlf ++ rest) =
        .ok (ls, rest) → scan (commentText level t ++ crlf ++ rest) = do
          let behind ← scan rest
          return ls ++ behind) ∧
      ∀ e, scanContent (indentLexemes level start) ('/' :: w ++ crlf ++ rest) = .error e →
        scan (commentText level t ++ crlf ++ rest) = .error e := by
  have hblank : scan (commentText level t ++ crlf ++ rest) =
      scan (indent level ++ '/' :: (w ++ crlf ++ rest)) := by
    have hline : scanLine (crlf ++ (indent level ++ '/' :: (w ++ crlf ++ rest))) =
        .ok ([], indent level ++ '/' :: (w ++ crlf ++ rest)) := rfl
    have hscan := scan_of_scanLine (by simp [crlf]) hline
    have hwhole : commentText level t ++ crlf ++ rest =
        crlf ++ (indent level ++ '/' :: (w ++ crlf ++ rest)) := by
      rw [hw]
      simp
    rw [hwhole, hscan]
    cases scan (indent level ++ '/' :: (w ++ crlf ++ rest)) <;> rfl
  have hline := scanLine_append_indent level (c := '/') (by decide) rfl (w ++ crlf ++ rest)
  refine ⟨indent level ++ '/' :: (w ++ crlf ++ rest), fun ls hls => ?_, fun e he => ?_⟩
  · rw [hblank]
    exact scan_of_scanLine (by simp) (hline.trans hls)
  · rw [hblank]
    exact scan_of_scanLine_error (by simp) (hline.trans he)

theorem finishComment_crlf {kind : Kind} (hne : t ≠ []) (rest : List Char) :
    finishComment indents kind s t (crlf ++ rest) =
      .ok (indents ++ [⟨kind, t, s⟩, ⟨.lineBreak, crlf, crlf ++ rest⟩], rest) := by
  have hempty : t.isEmpty = false := by simpa using hne
  rw [finishComment, hempty]
  rfl

theorem scansAs_of_scanContent (h : Kept t) {w : List Char} (kind : Kind)
    (hkind : kind.isComment = true) (hw : commentText level t = crlf ++ (indent level ++ '/' :: w))
    (hcontent : ∀ indents rest, scanContent indents ('/' :: w ++ crlf ++ rest) =
      finishComment indents kind ('/' :: w ++ crlf ++ rest) (reread t) (crlf ++ rest)) :
    ScansAs (commentText level t ++ crlf) (.comment level (String.ofList (reread t))) := by
  intro rest
  obtain ⟨htrim, hne⟩ := h.reread
  obtain ⟨start, hscan, -⟩ := scan_comment hw rest
  refine ⟨_, hscan _ ((hcontent _ rest).trans (finishComment_crlf hne rest)),
    fun source ts lines hts => ?_⟩
  have hspells := Spells.comment (indent_indentLexemes source level start)
    (c := Lexeme.token source ⟨kind, reread t, '/' :: w ++ crlf ++ rest⟩) hkind
    (by simpa [Lexeme.token] using hne)
    (by rw [Lexeme.token, trimmed, String.toList_ofList, htrim])
    (e := Lexeme.token source ⟨.lineBreak, crlf, crlf ++ rest⟩) rfl hts
  rw [List.map_append, List.append_assoc]
  exact hspells

theorem not_isBreak_of_not_mem {a : List Char} (hfeed : '\n' ∉ a) (hreturn : '\r' ∉ a) :
    ∀ c ∈ ' ' :: a, (!isBreak c) = true := by
  intro c hc
  rcases List.mem_cons.mp hc with rfl | hc
  · rfl
  · have hn : c ≠ '\n' := fun h => hfeed (h ▸ hc)
    have hr : c ≠ '\r' := fun h => hreturn (h ▸ hc)
    simp [isBreak, hn, hr]

theorem scansAs_comment (h : Kept t) (hbroken : ¬ Broken t) (level : Nat) :
    ScansAs (commentText level t ++ crlf) (.comment level (String.ofList (reread t))) := by
  by_cases hmem : '\n' ∈ t
  · obtain ⟨first, behind, hfull, hblock, -⟩ := h.exists_block hmem
    refine scansAs_of_scanContent h .blockComment rfl (h.commentText_block hmem level)
      fun indents rest => ?_
    have hread : readComment (inside level (fullLines t) ++ ['*', '/'] ++ crlf ++ rest) =
        .ok (inside level (fullLines t), crlf ++ rest) := by
      have hchain : (inside level (fullLines t)).IsChain KeepsOpen := by
        rw [hfull]
        exact isChain_inside hblock.keepsOpen
      simpa using readComment_append hchain (crlf ++ rest)
    have hclean : cleanComment (inside level (fullLines t)) = reread t := by
      rw [hfull, cleanComment_inside (by simp) fun l hl => (hblock.each l hl).1, reread,
        if_pos hmem, hfull]
    have hclose : closeComment (.ok (inside level (fullLines t), crlf ++ rest)) =
        .ok (inside level (fullLines t), crlf ++ rest) := rfl
    simp only [List.cons_append, scanContent, hread, hclose, bind, Except.bind, hclean]
  · refine scansAs_of_scanContent h .lineComment rfl (h.commentText_line hmem level)
      fun indents rest => ?_
    have hplain := not_isBreak_of_not_mem hmem fun hreturn => hbroken ⟨hmem, hreturn⟩
    have htake : (' ' :: t ++ (crlf ++ rest)).takeWhile (!isBreak ·) = ' ' :: t := by
      rw [List.takeWhile_append_of_pos hplain]
      simp [crlf, isBreak]
    have hdrop : (' ' :: t ++ (crlf ++ rest)).dropWhile (!isBreak ·) = crlf ++ rest := by
      rw [List.dropWhile_append_of_pos hplain]
      simp [crlf, isBreak]
    have htrim : trim (' ' :: t) = t := by
      have hspace : ∀ c ∈ [' '], isBlank c = true := isBlank_of_mem_singleton rfl
      have htrim := trim_append_blank hspace (b := []) (by simp) t
      rw [List.append_nil, h.trim_eq] at htrim
      exact htrim
    rw [reread, if_neg hmem]
    simp only [List.cons_append, List.append_assoc] at htake hdrop ⊢
    rw [scanContent, htake, hdrop, htrim]

/-- A carriage return in a comment of one line is not followed by a line feed there. -/
theorem refused_comment (h : Kept t) (hbroken : Broken t) (level : Nat) :
    Refused (commentText level t ++ crlf) := by
  intro rest
  obtain ⟨hmem, hreturn⟩ := hbroken
  have htext := h.commentText_line hmem level
  obtain ⟨a, b, rfl, ha⟩ := List.eq_append_cons_of_mem hreturn
  obtain ⟨front, c, hlast, hc⟩ := h.solid.last
  have hb : b ≠ [] := by
    rintro rfl
    have hreturn : '\r' = c := by simpa using congrArg List.getLast? hlast
    rw [← hreturn] at hc
    cases hc
  obtain ⟨d, b, rfl⟩ := List.exists_cons_of_ne_nil hb
  simp only [List.mem_append, List.mem_cons, not_or] at hmem
  obtain ⟨hfeed, -, hnext, -⟩ := hmem
  have hplain := not_isBreak_of_not_mem hfeed ha
  have hdrop : (' ' :: a ++ '\r' :: d :: (b ++ (crlf ++ rest))).dropWhile (!isBreak ·) =
      '\r' :: d :: (b ++ (crlf ++ rest)) := by
    rw [List.dropWhile_append_of_pos hplain]
    simp [isBreak]
  have hbreak : nextLine ('\r' :: d :: (b ++ (crlf ++ rest))) =
      .error ⟨.loneCarriageReturn, '\r' :: d :: (b ++ (crlf ++ rest))⟩ := by
    rw [nextLine, if_neg (by simp), breakLine]
    simpa using Ne.symm hnext
  obtain ⟨start, -, hscan⟩ := scan_comment htext rest
  refine ⟨⟨.loneCarriageReturn, '\r' :: d :: (b ++ (crlf ++ rest))⟩, hscan _ ?_⟩
  simp only [List.cons_append, List.append_assoc] at hdrop ⊢
  rw [scanContent, hdrop, finishComment, hbreak]
  rfl

end Outline.Token
