import CodingGateway.Proofs.ConfigFields
import CodingGateway.Proofs.PhysicalLines
set_option autoImplicit false

/-!
# Comments in a configuration file

The reference configuration puts comments on lines of their own and after values.  The
parser knows only the first kind, and reads a physical line in pieces of 255 characters.

* `uncommented_cases` — what is kept of a line, and what its comment is;
* `configLine_tail` — when the comment behind a value does no harm;
* `comments_inert` — when deleting every comment changes nothing.
-/

namespace CodingGateway.Proofs.Comments

open CodingGateway.Model
open CodingGateway.Library.Stripping
open CodingGateway.Proofs.ConfigFields
open CodingGateway.Proofs.PhysicalLines

/-! ## What a comment is -/

/-- The text before the first `#` that follows white space. -/
def beforeHash : List UInt8 → List UInt8
  | [] => []
  | [c] => [c]
  | c :: d :: rest => if isSpace c = true ∧ d = 35 then [c] else c :: beforeHash (d :: rest)

/-- A physical line without its comment: the text from a `#` that comes first in the line, or
that follows white space behind the `=` of an assignment. -/
def uncommented (l : List UInt8) : List UInt8 :=
  match l.dropWhile isSpace with
  | [] => l
  | c :: _ =>
      if c = 35 then l.takeWhile isSpace
      else if c ≠ 91 ∧ 61 ∈ l then
        l.takeWhile (· ≠ 61) ++ 61 :: beforeHash ((l.dropWhile (· ≠ 61)).drop 1)
      else l

def uncommentFile (file : List UInt8) : List UInt8 :=
  joinLines ((file.splitOn 10).map uncommented)

/-- The file that ends after its first `n` physical lines. -/
def firstLines (n : ℕ) (file : List UInt8) : List UInt8 := joinLines ((file.splitOn 10).take n)

/-- The comment of a line, from its `#` on. -/
def commentOf (l : List UInt8) : List UInt8 := l.drop (uncommented l).length

/-- The text is empty or ends with white space. -/
def EndsBlank (s : List UInt8) : Prop := s = [] ∨ ∃ s' x, s = s' ++ [x] ∧ isSpace x = true

theorem beforeHash_cases (s : List UInt8) :
    beforeHash s = s ∨
      ∃ s' x c, beforeHash s = s' ++ [x] ∧ isSpace x = true ∧ s = beforeHash s ++ 35 :: c := by
  induction s with
  | nil => exact Or.inl rfl
  | cons x s ih =>
      cases s with
      | nil => exact Or.inl rfl
      | cons d rest =>
          rw [beforeHash]
          split_ifs with hhash
          · exact Or.inr ⟨[], x, rest, rfl, hhash.1, by rw [hhash.2]; rfl⟩
          · rcases ih with hsame | ⟨s', y, c, hend, hy, hsplit⟩
            · exact Or.inl (by rw [hsame])
            · refine Or.inr ⟨x :: s', y, c, by rw [hend]; rfl, hy, ?_⟩
              rw [List.cons_append, ← hsplit]

/-- The line starts an assignment that ends with white space. -/
structure StartsAssignment (s : List UInt8) : Prop where
  notComment : ∀ rest, s.dropWhile isSpace ≠ 35 :: rest
  notSection : ∀ rest, s.dropWhile isSpace ≠ 91 :: rest
  equals : 61 ∈ s

theorem cut_at_equals {s : List UInt8} (h : 61 ∈ s) :
    s.takeWhile (· ≠ 61) ++ 61 :: (s.dropWhile (· ≠ 61)).drop 1 = s := by
  cases hdrop : s.dropWhile (· ≠ 61) with
  | nil =>
      have hall := List.dropWhile_eq_nil_iff.mp hdrop 61 h
      simp at hall
  | cons x rest =>
      have hne : s.dropWhile (fun x => decide (x ≠ 61)) ≠ [] := by
        rw [hdrop]
        exact List.cons_ne_nil x rest
      have hhead := List.head_dropWhile_not (fun x => decide (x ≠ 61)) hne
      have hx : x = 61 := by
        simp only [hdrop, List.head_cons] at hhead
        simpa using hhead
      calc s.takeWhile (· ≠ 61) ++ 61 :: (x :: rest).drop 1
          = s.takeWhile (· ≠ 61) ++ s.dropWhile (· ≠ 61) := by rw [hdrop, hx]; rfl
        _ = s := List.takeWhile_append_dropWhile

/-- What an assignment starts with does not depend on what is behind its `=`. -/
theorem startsAssignment_of_line {k v v' : List UInt8} {ch : UInt8} {rest : List UInt8}
    (hbody : (k ++ 61 :: v).dropWhile isSpace = ch :: rest) (hhash : ch ≠ 35) (hsection : ch ≠ 91) :
    StartsAssignment (k ++ 61 :: v') := by
  have hequals : isSpace 61 = false := rfl
  rw [dropWhile_append_cons hequals] at hbody
  have hstart : ∀ d rest', (k ++ 61 :: v').dropWhile isSpace = d :: rest' → d = 61 ∨ d = ch := by
    intro d rest' hd
    rw [dropWhile_append_cons hequals] at hd
    cases hk : k.dropWhile isSpace with
    | nil =>
        rw [hk] at hd
        exact Or.inl (List.cons.inj hd).1.symm
    | cons y ys =>
        rw [hk] at hd hbody
        exact Or.inr ((List.cons.inj hd).1.symm.trans (List.cons.inj hbody).1)
  refine ⟨fun rest' h => ?_, fun rest' h => ?_, by simp⟩
  · rcases hstart 35 rest' h with h61 | hch
    · cases h61
    · exact hhash hch.symm
  · rcases hstart 91 rest' h with h61 | hch
    · cases h61
    · exact hsection hch.symm

/-- A comment is everything behind the text that is kept, which is blank or an assignment. -/
theorem uncommented_cases (l : List UInt8) :
    uncommented l = l ∨
      ∃ c, l = uncommented l ++ 35 :: c ∧ EndsBlank (uncommented l) ∧
        (Blank isSpace (uncommented l) ∨ StartsAssignment (uncommented l)) := by
  unfold uncommented
  split
  · exact Or.inl rfl
  · next ch rest hbody =>
      split_ifs with hhash hassign
      · right
        have hsplit : l = l.takeWhile isSpace ++ 35 :: rest := by
          rw [← hhash, ← hbody, List.takeWhile_append_dropWhile]
        have hblank : Blank isSpace (l.takeWhile isSpace) := fun x hx => List.mem_takeWhile_imp hx
        refine ⟨rest, hsplit, ?_, Or.inl hblank⟩
        rcases List.eq_nil_or_concat (l.takeWhile isSpace) with hnil | ⟨s', x, hlast⟩
        · exact Or.inl hnil
        · refine Or.inr ⟨s', x, by simpa using hlast, hblank x ?_⟩
          rw [hlast]
          simp
      · have hcut := cut_at_equals hassign.2
        generalize l.takeWhile (· ≠ 61) = k, (l.dropWhile (· ≠ 61)).drop 1 = v at hcut ⊢
        subst hcut
        rcases beforeHash_cases v with hsame | ⟨v', x, c, hend, hx, hsplit⟩
        · left
          rw [hsame]
        · refine Or.inr ⟨c, ?_, Or.inr ⟨k ++ 61 :: v', x, ?_, hx⟩,
            Or.inr (startsAssignment_of_line hbody hhash hassign.1)⟩
          · rw [List.append_assoc, List.cons_append, ← hsplit]
          · rw [hend, List.append_assoc, List.cons_append]
      · exact Or.inl rfl

example : uncommented (chars "crypto_key =   # 64 hex chars") = chars "crypto_key =   " := by
  decide

/-! ## When a comment does no harm -/

/-- The text is read as neither a section header nor an assignment to a field. -/
def readsNothing (st : ConfigState) (text : List UInt8) : Bool :=
  match trim (cString text) with
  | [] => true
  | c :: rest =>
      if c = 35 then true
      else if c = 91 then decide (93 ∉ rest)
      else
        decide (61 ∉ c :: rest) ||
          (fieldOf st (trim ((c :: rest).takeWhile (· ≠ 61)))).isNone

/-- The comment `c` behind the text `t` of one piece does no harm: `t` sets no field that takes
the comment in, and is no section header that the comment closes. -/
def tailHarmless (st : ConfigState) (t c : List UInt8) : Bool :=
  decide (0 ∈ t) ||
    match trim t with
    | [] => true
    | ch :: rest =>
        if ch = 35 then true
        else if ch = 91 then decide (93 ∈ rest) || decide (93 ∉ cString c)
        else
          decide (61 ∉ ch :: rest) ||
            keeps (fieldOf st (trim ((ch :: rest).takeWhile (· ≠ 61))))
              (trim (((ch :: rest).dropWhile (· ≠ 61)).drop 1))

/-- The comment `c` behind the text `s` of a line does no harm in the piece where it starts, and
nothing is read in its further pieces. -/
def commentHarmless (num : NumberParser) (st : ConfigState) (s c : List UInt8) : Bool :=
  let st := readFile num st (fullPart s)
  let room := 255 - (lastPart s).length
  tailHarmless st (lastPart s) (c.take room) &&
    (fgetsLines [] (c.drop room)).all
      (readsNothing (configLine num st (lastPart s ++ c.take room)))

/-- The line has no comment, or it does no harm. -/
def lineHarmless (num : NumberParser) (st : ConfigState) (l : List UInt8) : Bool :=
  (commentOf l).isEmpty || commentHarmless num st (uncommented l) (commentOf l)

/-- No comment of the lines does harm in the state in which its line is read. -/
def linesHarmless (num : NumberParser) : ConfigState → List (List UInt8) → Bool
  | _, [] => true
  | st, l :: lines => lineHarmless num st l && linesHarmless num (readFile num st l) lines

def commentsHarmless (num : NumberParser) (file : List UInt8) : Bool :=
  linesHarmless num ⟨configDefaults, [], none⟩ (file.splitOn 10)

/-! ### The piece in which a comment starts -/

section Tail

variable {num : NumberParser} {st : ConfigState} {t : List UInt8}

theorem cString_of_nul {s : List UInt8} (h : 0 ∈ s) (text : List UInt8) :
    cString (s ++ text) = cString s := by
  unfold cString
  rw [List.takeWhile_append, if_neg]
  intro hlen
  have hall : s.takeWhile (· ≠ 0) = s := (List.takeWhile_prefix _).eq_of_length hlen
  have hzero := List.takeWhile_eq_self_iff.mp hall 0 h
  simp at hzero

theorem cString_of_no_nul {s : List UInt8} (h : 0 ∉ s) (text : List UInt8) :
    cString (s ++ text) = s ++ cString text := by
  refine List.takeWhile_append_of_pos fun x hx => ?_
  rw [decide_eq_true_iff]
  exact fun hzero => h (hzero ▸ hx)

theorem trim_tail (ht : EndsBlank t) (e : List UInt8) :
    ∃ w, Blank isSpace w ∧ (trim t = [] → w = []) ∧ (trim t ≠ [] → w ≠ []) ∧
      trim (t ++ 35 :: e) = trim t ++ w ++ 35 :: e.rdropWhile isSpace := by
  obtain ⟨w, hw, hnil, hne, htrim⟩ := strip_append_cons (p := isSpace) (d := 35) rfl t e
  refine ⟨w, hw, hnil, fun htext => hne htext ?_, htrim⟩
  rcases ht with rfl | hend
  · exact absurd rfl htext
  · exact hend

theorem split_append_of_mem {d : UInt8} {s : List UInt8} (h : d ∈ s) (text : List UInt8) :
    (s ++ text).takeWhile (· ≠ d) = s.takeWhile (· ≠ d) ∧
      ((s ++ text).dropWhile (· ≠ d)).drop 1 = (s.dropWhile (· ≠ d)).drop 1 ++ text := by
  have hne : s.dropWhile (· ≠ d) ≠ [] := by
    intro hnil
    have hall := List.dropWhile_eq_nil_iff.mp hnil d h
    simp at hall
  constructor
  · rw [List.takeWhile_append, if_neg]
    intro hlen
    have hall : s.takeWhile (· ≠ d) = s := (List.takeWhile_prefix _).eq_of_length hlen
    have hd := List.takeWhile_eq_self_iff.mp hall d h
    simp at hd
  · rw [dropWhile_append_of_ne_nil hne, List.drop_append_of_le_length]
    exact List.length_pos_of_ne_nil hne

theorem openSection_of_mem {rest : List UInt8} (h : 93 ∈ rest) (text : List UInt8) :
    openSection st (rest ++ text) = openSection st rest := by
  unfold openSection
  rw [(split_append_of_mem h text).1, if_pos h, if_pos (List.mem_append_left text h)]

theorem openSection_of_notMem {rest : List UInt8} (h : 93 ∉ rest) : openSection st rest = st :=
  if_neg h

theorem configLine_of_trim {s : List UInt8} {ch : UInt8} {rest : List UInt8}
    (htrim : trim (cString s) = ch :: rest) (hhash : ch ≠ 35) (hsection : ch ≠ 91)
    (hequals : 61 ∈ ch :: rest) :
    configLine num st s = assign num st (trim ((ch :: rest).takeWhile (· ≠ 61)))
      (trim (((ch :: rest).dropWhile (· ≠ 61)).drop 1)) := by
  unfold configLine
  rw [htrim]
  dsimp only
  rw [if_neg hhash, if_neg hsection, if_pos hequals]

theorem trim_cString_tail (ht : EndsBlank t) (hnul : 0 ∉ t) (e : List UInt8) :
    ∃ w, Blank isSpace w ∧ (trim t = [] → w = []) ∧ (trim t ≠ [] → w ≠ []) ∧
      trim (cString t) = trim t ∧
      trim (cString (t ++ 35 :: e)) = trim t ++ w ++ 35 :: (cString e).rdropWhile isSpace := by
  obtain ⟨w, hw, hnil, hne, hline⟩ := trim_tail ht (cString e)
  refine ⟨w, hw, hnil, hne, ?_, ?_⟩
  · have hsame := cString_of_no_nul hnul []
    rw [List.append_nil] at hsame
    rw [hsame]
    exact congrArg trim (List.append_nil t)
  · rw [cString_of_no_nul hnul]
    exact hline

theorem configLine_assignment (st : ConfigState) (hnum : StopsAtComment num) (ht : EndsBlank t)
    (hnul : 0 ∉ t) {ch : UInt8} {rest : List UInt8} (htrim : trim t = ch :: rest) (hhash : ch ≠ 35)
    (hsection : ch ≠ 91) (hequals : 61 ∈ ch :: rest) (e : List UInt8) :
    ∃ val', Commented num (trim (((ch :: rest).dropWhile (· ≠ 61)).drop 1)) val' ∧
      configLine num st (t ++ 35 :: e) =
        assign num st (trim ((ch :: rest).takeWhile (· ≠ 61))) val' ∧
      configLine num st t = assign num st (trim ((ch :: rest).takeWhile (· ≠ 61)))
        (trim (((ch :: rest).dropWhile (· ≠ 61)).drop 1)) := by
  obtain ⟨w, hw, _, hne, htext, hline⟩ := trim_cString_tail ht hnul e
  rw [htrim] at htext hline hne
  rw [configLine_of_trim htext hhash hsection hequals]
  obtain ⟨w', x, rfl⟩ := (List.eq_nil_or_concat' w).resolve_left (hne (List.cons_ne_nil ch rest))
  generalize (cString e).rdropWhile isSpace = e' at hline
  rw [List.append_assoc, List.cons_append] at hline
  have hwhole : configLine num st (t ++ 35 :: e) = _ :=
    configLine_of_trim hline hhash hsection (List.mem_append_left _ hequals)
  obtain ⟨hkey, hafter⟩ := split_append_of_mem hequals (w' ++ [x] ++ 35 :: e')
  rw [List.cons_append] at hkey hafter
  rw [hkey, hafter] at hwhole
  -- what is behind the `=` is trimmed once more
  generalize ((ch :: rest).dropWhile (· ≠ 61)).drop 1 = after at hwhole ⊢
  have hends : EndsBlank (after ++ (w' ++ [x])) :=
    Or.inr ⟨after ++ w', x, (List.append_assoc ..).symm, hw x (by simp)⟩
  obtain ⟨w₂, hw₂, hnil₂, hne₂, hval⟩ := trim_tail hends e'
  have hblank : trim (after ++ (w' ++ [x])) = trim after := strip_append_blank after hw
  rw [hblank] at hnil₂ hne₂ hval
  rw [← List.append_assoc after, hval] at hwhole
  exact ⟨_, commented_of_append hnum hw₂ hne₂ hnil₂, hwhole, rfl⟩

theorem notMem_of_blank {d : UInt8} (hd : isSpace d = false) {w : List UInt8}
    (hw : Blank isSpace w) : d ∉ w := by
  intro hmem
  rw [hw d hmem] at hd
  cases hd

theorem openSection_tail (st : ConfigState) {rest w e : List UInt8} (hw : Blank isSpace w)
    (h : 93 ∈ rest ∨ 93 ∉ cString (35 :: e)) :
    openSection st (rest ++ (w ++ 35 :: (cString e).rdropWhile isSpace)) = openSection st rest := by
  by_cases hrest : 93 ∈ rest
  · exact openSection_of_mem hrest _
  · have hcomment : 93 ∉ cString e := fun hmem =>
      h.resolve_left hrest (List.mem_cons_of_mem 35 hmem)
    have hwhole : 93 ∉ rest ++ (w ++ 35 :: (cString e).rdropWhile isSpace) := by
      intro hmem
      rcases List.mem_append.mp hmem with hin | hin
      · exact hrest hin
      · rcases List.mem_append.mp hin with hin | hin
        · exact notMem_of_blank rfl hw hin
        · rcases List.mem_cons.mp hin with heq | hin
          · cases heq
          · exact hcomment ((List.rdropWhile_prefix isSpace _).mem hin)
    rw [openSection_of_notMem hrest, openSection_of_notMem hwhole]

/-- An `=` in the comment makes an assignment to no key. -/
theorem configLine_of_hash_key {s : List UInt8} {ch : UInt8} {rest w e : List UInt8}
    (htrim : trim (cString s) = ch :: rest ++ w ++ 35 :: e) (hw : Blank isSpace w)
    (hhash : ch ≠ 35) (hsection : ch ≠ 91) (hequals : 61 ∉ ch :: rest) :
    configLine num st s = st := by
  have hbefore : 61 ∉ ch :: rest ++ w := by
    intro hmem
    rcases List.mem_append.mp hmem with hin | hin
    · exact hequals hin
    · exact notMem_of_blank rfl hw hin
  have hkey : (ch :: rest ++ w ++ 35 :: e).takeWhile (· ≠ 61) =
      ch :: rest ++ w ++ 35 :: e.takeWhile (· ≠ 61) := by
    refine List.takeWhile_append_of_pos fun x hx => ?_
    rw [decide_eq_true_iff]
    exact fun heq => hbefore (heq ▸ hx)
  have hmem : 35 ∈ trim ((ch :: rest ++ w ++ 35 :: e).takeWhile (· ≠ 61)) := by
    obtain ⟨w', _, _, _, hstrip⟩ :=
      strip_append_cons (p := isSpace) (d := 35) rfl (ch :: rest ++ w) (e.takeWhile (· ≠ 61))
    rw [hkey, trim_eq_strip, hstrip]
    simp
  unfold configLine
  rw [htrim]
  simp only [List.cons_append] at hmem ⊢
  rw [if_neg hhash, if_neg hsection, assign_of_no_field num (fieldOf_of_hash st hmem), ite_self]

theorem configLine_tail (hnum : StopsAtComment num) (ht : EndsBlank t) (e : List UInt8)
    (h : tailHarmless st t (35 :: e) = true) :
    configLine num st (t ++ 35 :: e) = configLine num st t := by
  by_cases hnul : 0 ∈ t
  · unfold configLine
    rw [cString_of_nul hnul]
  · obtain ⟨w, hw, hnil, hne, htext, hline⟩ := trim_cString_tail ht hnul e
    rw [tailHarmless, decide_eq_false hnul, Bool.false_or] at h
    cases htrim : trim t with
    | nil =>
        rw [htrim, hnil htrim] at hline
        rw [htrim] at htext
        unfold configLine
        rw [hline, htext]
        rfl
    | cons ch rest =>
        rw [htrim] at h htext hline hne
        dsimp only at h
        by_cases hhash : ch = 35
        · unfold configLine
          rw [hline, htext]
          simp [hhash]
        · rw [if_neg hhash] at h
          by_cases hsection : ch = 91
          · rw [if_pos hsection, Bool.or_eq_true, decide_eq_true_iff, decide_eq_true_iff] at h
            rw [List.append_assoc, List.cons_append] at hline
            have hopen := openSection_tail st hw h
            unfold configLine
            rw [hline, htext]
            dsimp only
            rw [if_neg hhash, if_neg hhash, if_pos hsection, if_pos hsection, hopen]
          · rw [if_neg hsection, Bool.or_eq_true, decide_eq_true_iff] at h
            by_cases hequals : 61 ∈ ch :: rest
            · obtain ⟨val', hval, hcommented, hplain⟩ :=
                configLine_assignment st hnum ht hnul htrim hhash hsection hequals e
              rw [hcommented, hplain, assign_eq_iff hval]
              exact h.resolve_left (not_not.mpr hequals)
            · rw [configLine_of_hash_key hline hw hhash hsection hequals]
              unfold configLine
              rw [htext]
              dsimp only
              rw [if_neg hhash, if_neg hsection, if_neg hequals]

end Tail

/-! ### A physical line -/

section Line

variable {num : NumberParser} {st : ConfigState} {l : List UInt8}

theorem configLine_of_readsNothing {text : List UInt8} (h : readsNothing st text = true) :
    configLine num st text = st := by
  unfold readsNothing at h
  unfold configLine
  cases htrim : trim (cString text) with
  | nil => rfl
  | cons ch rest =>
      rw [htrim] at h
      dsimp only at h ⊢
      split_ifs at h ⊢ with hhash hsection hequals
      · rfl
      · exact openSection_of_notMem (of_decide_eq_true h)
      · rw [decide_eq_false (not_not.mpr hequals), Bool.false_or, Option.isNone_iff_eq_none] at h
        exact assign_of_no_field num h _
      · rfl

theorem readFile_of_readsNothing {text : List UInt8}
    (h : (fgetsLines [] text).all (readsNothing st) = true) : readFile num st text = st := by
  unfold readFile
  generalize fgetsLines [] text = pieces at h ⊢
  induction pieces with
  | nil => rfl
  | cons piece pieces ih =>
      rw [List.all_cons, Bool.and_eq_true] at h
      rw [List.foldl_cons, configLine_of_readsNothing h.1]
      exact ih h.2

theorem readFile_buffer {s c : List UInt8} (hs : s.length < 255) (hsc : 10 ∉ s ++ c) :
    readFile num st (s ++ c) =
      readFile num (configLine num st (s ++ c.take (255 - s.length)))
        (c.drop (255 - s.length)) := by
  have hmem : 10 ∉ s ++ c.take (255 - s.length) := by
    intro hin
    rcases List.mem_append.mp hin with hin | hin
    · exact hsc (List.mem_append_left c hin)
    · exact hsc (List.mem_append_right s (List.mem_of_mem_take hin))
  rcases Nat.lt_or_ge (255 - s.length) c.length with hlt | hge
  · have hfull : (s ++ c.take (255 - s.length)).length = 255 := by
      rw [List.length_append, List.length_take]
      omega
    rw [← readFile_full num st hmem hfull, List.append_assoc, List.take_append_drop]
  · rw [List.take_of_length_le hge, List.drop_of_length_le hge]
    refine readFile_le hsc ?_
    rw [List.length_append]
    omega

theorem endsBlank_lastPart {s : List UInt8} (h : EndsBlank s) : EndsBlank (lastPart s) := by
  rcases h with rfl | ⟨s', x, rfl, hx⟩
  · exact Or.inl rfl
  · unfold lastPart
    rcases Nat.lt_or_ge s'.length (255 * ((s' ++ [x]).length / 255)) with hlt | hge
    · left
      rw [List.drop_eq_nil_iff]
      have hlen : (s' ++ [x]).length = s'.length + 1 := by simp
      omega
    · exact Or.inr ⟨s'.drop (255 * ((s' ++ [x]).length / 255)), x,
        List.drop_append_of_le_length hge, hx⟩

theorem commentOf_eq {c : List UInt8} (h : l = uncommented l ++ 35 :: c) :
    commentOf l = 35 :: c := by
  unfold commentOf
  generalize uncommented l = u at h ⊢
  rw [h, List.drop_left]

theorem newline_notMem_uncommented {l : List UInt8} (hl : 10 ∉ l) : 10 ∉ uncommented l := by
  rcases uncommented_cases l with hsame | ⟨c, hsplit, _⟩
  · rw [hsame]
    exact hl
  · intro hin
    rw [hsplit] at hl
    exact hl (List.mem_append_left _ hin)

theorem readFile_uncommented (hnum : StopsAtComment num) (hl : 10 ∉ l)
    (h : lineHarmless num st l = true) :
    readFile num st (uncommented l) = readFile num st l := by
  rcases uncommented_cases l with hsame | ⟨c, hsplit, hends, _⟩
  · rw [hsame]
  · rw [lineHarmless, commentOf_eq hsplit, List.isEmpty_cons, Bool.false_or, commentHarmless,
      Bool.and_eq_true] at h
    obtain ⟨htail, hpieces⟩ := h
    have hu := newline_notMem_uncommented hl
    generalize uncommented l = u at hsplit hends htail hpieces hu ⊢
    have hfull : 10 ∉ fullPart u := fun hin => hu (List.mem_of_mem_take hin)
    have hlast : 10 ∉ lastPart u := fun hin => hu (List.mem_of_mem_drop hin)
    have hlen := length_lastPart u
    have hrest : 10 ∉ lastPart u ++ 35 :: c := by
      intro hin
      refine hl ?_
      rw [hsplit, ← fullPart_append_lastPart u, List.append_assoc]
      exact List.mem_append_right _ hin
    have hbefore : ∀ text, readFile num st (fullPart u ++ text) =
        readFile num (readFile num st (fullPart u)) text :=
      readFile_pieces hfull (length_fullPart u)
    have hfirst : (35 :: c).take (255 - (lastPart u).length) =
        35 :: c.take (254 - (lastPart u).length) := by
      rw [show 255 - (lastPart u).length = (254 - (lastPart u).length) + 1 by omega,
        List.take_succ_cons]
    calc readFile num st u
        = configLine num (readFile num st (fullPart u)) (lastPart u) := by
          rw [← readFile_short hlast hlen, ← hbefore, fullPart_append_lastPart]
      _ = configLine num (readFile num st (fullPart u))
            (lastPart u ++ (35 :: c).take (255 - (lastPart u).length)) := by
          rw [hfirst] at htail ⊢
          exact (configLine_tail hnum (endsBlank_lastPart hends) _ htail).symm
      _ = readFile num (readFile num st (fullPart u)) (lastPart u ++ 35 :: c) := by
          rw [readFile_buffer hlen hrest, readFile_of_readsNothing hpieces]
      _ = readFile num st l := by
          rw [← hbefore, ← List.append_assoc, fullPart_append_lastPart, ← hsplit]

theorem trim_of_startsAssignment {s : List UInt8} (h : StartsAssignment s) :
    ∃ ch rest, trim s = ch :: rest ∧ ch ≠ 35 ∧ ch ≠ 91 ∧ 61 ∈ ch :: rest := by
  have hbody : s.dropWhile isSpace = trim s ++ (s.dropWhile isSpace).rtakeWhile isSpace :=
    dropWhile_eq_strip_append s
  have hequals : 61 ∈ trim s := by
    have hin : 61 ∈ s.takeWhile isSpace ++ s.dropWhile isSpace := by
      rw [List.takeWhile_append_dropWhile]
      exact h.equals
    rcases List.mem_append.mp hin with hblank | hin
    · exact absurd hblank (notMem_of_blank rfl fun x hx => List.mem_takeWhile_imp hx)
    · rw [hbody] at hin
      exact (List.mem_append.mp hin).resolve_right
        (notMem_of_blank rfl fun x hx => List.mem_rtakeWhile_imp hx)
  cases htrim : trim s with
  | nil =>
      rw [htrim] at hequals
      cases hequals
  | cons ch rest =>
      rw [htrim, List.cons_append] at hbody
      refine ⟨ch, rest, rfl, ?_, ?_, htrim ▸ hequals⟩
      · rintro rfl
        exact h.notComment _ hbody
      · rintro rfl
        exact h.notSection _ hbody

theorem lineHarmless_of_clampConfig (hnum : StopsAtComment num) (hl : 10 ∉ l)
    (hlen : l.length ≤ 255)
    (h : clampConfig (readFile num st (uncommented l)).cfg =
      clampConfig (readFile num st l).cfg) : lineHarmless num st l = true := by
  rcases uncommented_cases l with hsame | ⟨c, hsplit, hends, hkind⟩
  · have hnone : commentOf l = [] := by
      rw [commentOf, hsame, List.drop_length]
    rw [lineHarmless, hnone]
    rfl
  · rw [lineHarmless, commentOf_eq hsplit, List.isEmpty_cons, Bool.false_or, commentHarmless]
    have hu := newline_notMem_uncommented hl
    generalize uncommented l = u at hsplit hends hkind h hu ⊢
    have hfits : u.length + (c.length + 1) ≤ 255 := by
      rw [hsplit, List.length_append, List.length_cons] at hlen
      exact hlen
    have hnopieces : 255 * (u.length / 255) = 0 := by omega
    have hfull : fullPart u = [] := by rw [fullPart, hnopieces, List.take_zero]
    have hlast : lastPart u = u := by rw [lastPart, hnopieces, List.drop_zero]
    rw [hfull, hlast, List.take_of_length_le (by rw [List.length_cons]; omega),
      List.drop_of_length_le (by rw [List.length_cons]; omega), Bool.and_eq_true]
    refine ⟨?_, rfl⟩
    rw [readFile_short hu (by omega), readFile_le hl hlen] at h
    change tailHarmless st u (35 :: c) = true
    unfold tailHarmless
    by_cases hnul : 0 ∈ u
    · rw [decide_eq_true hnul]
      rfl
    · rw [decide_eq_false hnul, Bool.false_or]
      rcases hkind with hblank | hassign
      · rw [trim_eq_strip, strip_of_blank hblank]
      · obtain ⟨ch, rest, htrim, hhash, hsection, hequals⟩ := trim_of_startsAssignment hassign
        obtain ⟨val', hval, hcommented, hplain⟩ :=
          configLine_assignment st hnum hends hnul htrim hhash hsection hequals c
        rw [hsplit, hcommented, hplain, eq_comm, clampConfig_assign_iff hval] at h
        rw [htrim]
        dsimp only
        rw [if_neg hhash, if_neg hsection, h, Bool.or_true]

end Line

/-! ### A file -/

section File

variable {num : NumberParser} {st : ConfigState} {lines : List (List UInt8)}

theorem newline_notMem_splitOn (file : List UInt8) : ∀ l ∈ file.splitOn 10, 10 ∉ l := by
  induction file with
  | nil => simp [List.splitOn_eq_splitOnP]
  | cons c file ih =>
      intro l hl
      rw [List.splitOn_cons_eq_if_modifyHead] at hl
      obtain ⟨first, rest, hsplit⟩ := List.exists_cons_of_ne_nil (List.splitOn_ne_nil 10 file)
      rw [hsplit] at ih hl
      split_ifs at hl with hc
      · rcases List.mem_cons.mp hl with rfl | hl
        · exact List.not_mem_nil
        · exact ih l hl
      · rw [List.modifyHead_cons] at hl
        rcases List.mem_cons.mp hl with rfl | hl
        · intro hin
          rcases List.mem_cons.mp hin with heq | hin
          · exact hc (beq_iff_eq.mpr heq.symm)
          · exact ih first List.mem_cons_self hin
        · exact ih l (List.mem_cons_of_mem first hl)

theorem foldl_uncommented (hnum : StopsAtComment num) (hlines : ∀ l ∈ lines, 10 ∉ l)
    (h : linesHarmless num st lines = true) :
    (lines.map uncommented).foldl (readFile num) st = lines.foldl (readFile num) st := by
  induction lines generalizing st with
  | nil => rfl
  | cons l lines ih =>
      rw [linesHarmless, Bool.and_eq_true] at h
      rw [List.map_cons, List.foldl_cons, List.foldl_cons,
        readFile_uncommented hnum (hlines l List.mem_cons_self) h.1]
      exact ih (fun l' hl' => hlines l' (List.mem_cons_of_mem l hl')) h.2

theorem linesHarmless_of_clampConfig (hnum : StopsAtComment num) (hlines : ∀ l ∈ lines, 10 ∉ l)
    (hlen : ∀ l ∈ lines, l.length ≤ 255)
    (h : ∀ n, clampConfig (((lines.map uncommented).take n).foldl (readFile num) st).cfg =
      clampConfig ((lines.take n).foldl (readFile num) st).cfg) :
    linesHarmless num st lines = true := by
  induction lines generalizing st with
  | nil => rfl
  | cons l lines ih =>
      have hl := hlines l List.mem_cons_self
      have hline : lineHarmless num st l = true :=
        lineHarmless_of_clampConfig hnum hl (hlen l List.mem_cons_self) (h 1)
      rw [linesHarmless, hline, Bool.true_and]
      refine ih (fun l' hl' => hlines l' (List.mem_cons_of_mem l hl'))
        (fun l' hl' => hlen l' (List.mem_cons_of_mem l hl')) fun n => ?_
      have hnext := h (n + 1)
      rw [List.map_cons, List.take_succ_cons, List.take_succ_cons, List.foldl_cons,
        List.foldl_cons, readFile_uncommented hnum hl hline] at hnext
      exact hnext

theorem configLoad_joinLines (hlines : ∀ l ∈ lines, 10 ∉ l) :
    configLoad num (some (joinLines lines)) =
      some (clampConfig (lines.foldl (readFile num) ⟨configDefaults, [], none⟩).cfg) := by
  rw [← readFile_joinLines hlines]
  rfl

theorem newline_notMem_map (hlines : ∀ l ∈ lines, 10 ∉ l) :
    ∀ l ∈ lines.map uncommented, 10 ∉ l := by
  intro l hl
  obtain ⟨l', hl', rfl⟩ := List.mem_map.mp hl
  exact newline_notMem_uncommented (hlines l' hl')

theorem splitOn_uncommentFile (file : List UInt8) :
    (uncommentFile file).splitOn 10 = (file.splitOn 10).map uncommented := by
  refine List.splitOn_intercalate 10 (newline_notMem_map (newline_notMem_splitOn file)) ?_
  simp

theorem linesHarmless_take (h : linesHarmless num st lines = true) (n : ℕ) :
    linesHarmless num st (lines.take n) = true := by
  induction n generalizing st lines with
  | zero => rfl
  | succ n ih =>
      cases lines with
      | nil => rfl
      | cons l lines =>
          rw [linesHarmless, Bool.and_eq_true] at h
          rw [List.take_succ_cons, linesHarmless, h.1, Bool.true_and]
          exact ih h.2

theorem configLoad_firstLines (num : NumberParser) (file : List UInt8) (n : ℕ) :
    configLoad num (some (firstLines n (uncommentFile file))) =
        configLoad num (some (firstLines n file)) ↔
      clampConfig ((((file.splitOn 10).map uncommented).take n).foldl (readFile num)
          ⟨configDefaults, [], none⟩).cfg =
        clampConfig (((file.splitOn 10).take n).foldl (readFile num)
          ⟨configDefaults, [], none⟩).cfg := by
  have hlines := newline_notMem_splitOn file
  rw [firstLines, firstLines, splitOn_uncommentFile,
    configLoad_joinLines fun l hl => hlines l (List.mem_of_mem_take hl),
    configLoad_joinLines fun l hl => newline_notMem_map hlines l (List.mem_of_mem_take hl),
    Option.some.injEq]

/-- Comments that do no harm are inert.  If no line is longer than the buffer, only such comments
are inert after every line of the file. -/
theorem comments_inert (hnum : StopsAtComment num) (file : List UInt8) :
    (commentsHarmless num file = true →
        configLoad num (some (uncommentFile file)) = configLoad num (some file)) ∧
      ((∀ l ∈ file.splitOn 10, l.length ≤ 255) →
        ((∀ n, configLoad num (some (firstLines n (uncommentFile file))) =
            configLoad num (some (firstLines n file))) ↔
          commentsHarmless num file = true)) := by
  have hlines := newline_notMem_splitOn file
  refine ⟨fun h => ?_, fun hlen => ⟨fun h => ?_, fun h n => ?_⟩⟩
  · calc configLoad num (some (uncommentFile file))
        = some (clampConfig (((file.splitOn 10).map uncommented).foldl (readFile num)
            ⟨configDefaults, [], none⟩).cfg) := configLoad_joinLines (newline_notMem_map hlines)
      _ = some (clampConfig ((file.splitOn 10).foldl (readFile num)
            ⟨configDefaults, [], none⟩).cfg) := by rw [foldl_uncommented hnum hlines h]
      _ = configLoad num (some (joinLines (file.splitOn 10))) :=
          (configLoad_joinLines hlines).symm
      _ = configLoad num (some file) := by rw [joinLines, List.intercalate_splitOn]
  · exact linesHarmless_of_clampConfig hnum hlines hlen fun n =>
      (configLoad_firstLines num file n).mp (h n)
  · rw [configLoad_firstLines, ← List.map_take,
      foldl_uncommented hnum (fun l hl => hlines l (List.mem_of_mem_take hl))
        (linesHarmless_take h n)]

end File

/-! ## The reference configuration -/

def isDigit (c : UInt8) : Bool := 48 ≤ c && c ≤ 57

/-- The number that unsigned decimal digits at the start of a text spell. -/
def leadingNumber (s : List UInt8) : ℕ :=
  (s.takeWhile isDigit).foldl (fun n c => 10 * n + (c.toNat - 48)) 0

/-- `atoi` and `atof` on unsigned whole numbers. -/
def wholeNumbers : NumberParser := ⟨fun s => leadingNumber s, fun s => leadingNumber s⟩

theorem isDigit_of_isSpace {c : UInt8} (h : isSpace c = true) : isDigit c = false := by
  simp only [isSpace, isDigit, Bool.or_eq_true, beq_iff_eq, Bool.and_eq_true, decide_eq_true_iff,
    Bool.and_eq_false_iff, decide_eq_false_iff_not, UInt8.le_iff_toNat_le] at h ⊢
  rcases h with rfl | h
  · exact Or.inl (by decide)
  · left
    simp at h ⊢
    omega

theorem leadingNumber_blank (s c : List UInt8) {w : List UInt8} (hne : w ≠ [])
    (hw : Blank isSpace w) : leadingNumber (s ++ w ++ 35 :: c) = leadingNumber s := by
  obtain ⟨x, w, rfl⟩ := List.exists_cons_of_ne_nil hne
  have hx : isDigit x = false := isDigit_of_isSpace (hw x List.mem_cons_self)
  have hstop : (s ++ (x :: w) ++ 35 :: c).takeWhile isDigit = s.takeWhile isDigit := by
    rw [List.append_assoc, List.cons_append, List.takeWhile_append]
    split_ifs with hall
    · rw [List.takeWhile_cons, if_neg (by simp [hx]), List.append_nil]
      exact ((List.takeWhile_prefix _).eq_of_length hall).symm
    · rfl
  rw [leadingNumber, hstop]
  rfl

theorem stopsAtComment_wholeNumbers : StopsAtComment wholeNumbers where
  atoi_blank s _ c hne hw := congrArg Nat.cast (leadingNumber_blank s c hne hw)
  atoi_hash _ := rfl
  atof_blank s _ c hne hw := congrArg Nat.cast (leadingNumber_blank s c hne hw)
  atof_hash _ := rfl

/-- Comments on their own line and behind numbers. -/
def numbersFile : List UInt8 :=
  chars "# coding-gateway.conf\n[general]\nmetrics_port = 9090   # Prometheus endpoint\n" ++
    chars "[coding]\nk = 4   # original packets per block\n"

theorem comments_inert_numbersFile :
    configLoad wholeNumbers (some (uncommentFile numbersFile)) =
      configLoad wholeNumbers (some numbersFile) :=
  (comments_inert stopsAtComment_wholeNumbers numbersFile).1 (by decide +kernel)

def modeFile : List UInt8 :=
  chars "[general]\nmode = tx               # tx | rx | both\n"

/-- A line of its own, of 264 characters. -/
def longCommentFile : List UInt8 :=
  chars "[general]\nmode = tx\n#" ++ List.replicate 254 45 ++ chars "mode = rx\n"

/-- The mode that is stored contains what is behind the value, and the end of the long comment
is an assignment. -/
theorem comments_not_inert :
    configLoad wholeNumbers (some (uncommentFile modeFile)) ≠
        configLoad wholeNumbers (some modeFile) ∧
      configLoad wholeNumbers (some (uncommentFile longCommentFile)) ≠
        configLoad wholeNumbers (some longCommentFile) := by
  constructor
  · intro h
    have hmode := congrArg (Option.map GatewayConfig.mode) h
    revert hmode
    decide +kernel
  · intro h
    have hmode := congrArg (Option.map GatewayConfig.mode) h
    revert hmode
    decide +kernel

end CodingGateway.Proofs.Comments
