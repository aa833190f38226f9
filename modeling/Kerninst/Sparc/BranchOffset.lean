import Kerninst.Sparc.Relocate

/-!
# Changing a branch in place

`changeBranchOffsetAndAnnulBit` puts a new displacement and a new annul bit into a branch, by
replacing these fields of the word. There is one routine for each kind of branch. Each of them
reads the word again when it is done, and asserts that it is what it should be.

The routines for the two kinds of floating-point branches assert `annul = new_annul`, with one
equality sign. That is an assignment, and as a condition it is the new annul bit: they
fail whenever the annul bit is to be cleared. In all other cases the fields are updated as they
should be (`changeBranchOffsetAndAnnulBit_correct_iff`).
-/

namespace Kerninst

open BranchKind Option

/-! ## The routines -/

/-- The assertions at the end of each routine, on the branch that the new word is. -/
def assertBranch (w : Word) (ok : Branch → Bool) : Option Word :=
  match pcRelative w with
  | some (.branch b) => (check (ok b)).map fun _ => w
  | _ => none

def BranchKind.isBicc : BranchKind → Bool
  | .bicc => true
  | _ => false

def BranchKind.isBPcc : BranchKind → Bool
  | .bpcc .. => true
  | _ => false

def BranchKind.isBPr : BranchKind → Bool
  | .bpr .. => true
  | _ => false

def BranchKind.isFBfcc : BranchKind → Bool
  | .fbfcc => true
  | _ => false

def BranchKind.isFBPfcc : BranchKind → Bool
  | .fbpfcc .. => true
  | _ => false

def changeBranchOffsetAndAnnulBicc (w : Word) (newOffset : Int) (newAnnul : Bool) :
    Option Word := do
  let disp ← dispField 22 newOffset
  assertBranch (replaceField (replaceField w 0 disp) 29 (flag newAnnul)) fun cfi =>
    cfi.kind.isBicc && cfi.offsetNBytes = newOffset && cfi.annul = newAnnul

def changeBranchOffsetAndAnnulBPcc (w : Word) (newOffset : Int) (newAnnul : Bool) :
    Option Word := do
  let disp ← dispField 19 newOffset
  assertBranch (replaceField (replaceField w 0 disp) 29 (flag newAnnul)) fun cfi =>
    cfi.kind.isBPcc && cfi.annul = newAnnul && cfi.offsetNBytes = newOffset

/-- The 16 bits of the displacement are in two places. -/
def changeBranchOffsetAndAnnulBPr (w : Word) (newOffset : Int) (newAnnul : Bool) :
    Option Word := do
  check (newOffset % 4 = 0)
  let newNumInsnsOffset := newOffset / 4
  let w₁ := replaceField w 29 (flag newAnnul)
  let w₂ := replaceField w₁ 20 (2, (newNumInsnsOffset / 2 ^ 14 % 4).toNat)
  let w₃ := replaceField w₂ 0 (14, (newNumInsnsOffset % 2 ^ 14).toNat)
  assertBranch w₃ fun cfi =>
    cfi.kind.isBPr && cfi.annul = newAnnul && cfi.offsetNBytes = newOffset

/-- The condition in the middle is `cfi.annul = new_annul`, whose value is `new_annul`. -/
def changeBranchOffsetAndAnnulFBfcc (w : Word) (newOffset : Int) (newAnnul : Bool) :
    Option Word := do
  let disp ← dispField 22 newOffset
  assertBranch (replaceField (replaceField w 29 (flag newAnnul)) 0 disp) fun cfi =>
    cfi.kind.isFBfcc && newAnnul && cfi.offsetNBytes = newOffset

/-- The condition in the middle is `cfi.annul = new_annul`, whose value is `new_annul`. -/
def changeBranchOffsetAndAnnulFBPfcc (w : Word) (newOffset : Int) (newAnnul : Bool) :
    Option Word := do
  let disp ← dispField 19 newOffset
  assertBranch (replaceField (replaceField w 29 (flag newAnnul)) 0 disp) fun cfi =>
    cfi.kind.isFBPfcc && newAnnul && cfi.offsetNBytes = newOffset

def changeBranchOffsetAndAnnulBit (w : Word) (newOffset : Int) (newAnnul : Bool) : Option Word :=
  match pcRelative w with
  | some (.branch ⟨.bicc, _, _, _⟩) => changeBranchOffsetAndAnnulBicc w newOffset newAnnul
  | some (.branch ⟨.bpcc .., _, _, _⟩) => changeBranchOffsetAndAnnulBPcc w newOffset newAnnul
  | some (.branch ⟨.bpr .., _, _, _⟩) => changeBranchOffsetAndAnnulBPr w newOffset newAnnul
  | some (.branch ⟨.fbfcc, _, _, _⟩) => changeBranchOffsetAndAnnulFBfcc w newOffset newAnnul
  | some (.branch ⟨.fbpfcc .., _, _, _⟩) => changeBranchOffsetAndAnnulFBPfcc w newOffset newAnnul
  | _ => none

/-- `changeBranchOffset`: the annul bit stays. -/
def changeBranchOffset (w : Word) (newOffset : Int) : Option Word :=
  match pcRelative w with
  | some (.branch b) => changeBranchOffsetAndAnnulBit w newOffset b.annul
  | _ => none

/-! ## What an update is -/

/-- Bit `i` belongs to the displacement. -/
def BranchKind.isDispBit (kind : BranchKind) (i : Nat) : Bool :=
  match kind with
  | .bicc | .fbfcc => i < 22
  | .bpcc .. | .fbpfcc .. => i < 19
  | .bpr .. => i < 14 || i = 20 || i = 21

def BranchKind.isFloat : BranchKind → Bool
  | .fbfcc | .fbpfcc .. => true
  | _ => false

/-- The branch with the new displacement and annul bit, and no other bit changed. -/
structure UpdatedTo (w : Word) (b : Branch) (newOffset : Int) (newAnnul : Bool) (w' : Word) :
    Prop where
  reads : pcRelative w' = some (.branch { b with annul := newAnnul, offsetNBytes := newOffset })
  others : ∀ i, i ≠ 29 → b.kind.isDispBit i = false → bitField w' i = bitField w i

/-- An offset that can be encoded is put in; for any other offset there is no result. -/
structure CorrectUpdate (w : Word) (b : Branch) (newOffset : Int) (newAnnul : Bool) : Prop where
  updates : Encodable b.kind.dispBits newOffset →
    ∃ w', changeBranchOffsetAndAnnulBit w newOffset newAnnul = some w' ∧
      UpdatedTo w b newOffset newAnnul w'
  refuses : ¬ Encodable b.kind.dispBits newOffset →
    changeBranchOffsetAndAnnulBit w newOffset newAnnul = none

/-- A word with other bits below `n` and another annul bit. -/
structure Rewritten (w w' : Word) (n v : Nat) (annul : Bool) : Prop where
  disp : field w' 0 n = v
  annul : bitField w' 29 = annul
  rest : ∀ lo m, n ≤ lo → lo + m ≤ 29 ∨ 30 ≤ lo → field w' lo m = field w lo m

theorem bitField_congr {w w' : Word} {i : Nat} (h : field w' i 1 = field w i 1) :
    bitField w' i = bitField w i := by
  rw [bitField, bitField, h]

theorem flag_lt (b : Bool) : b.toNat < 2 ^ 1 := Bool.toNat_lt b

section Rewriting

variable (w : Word) {n v : Nat} (annul : Bool)

theorem rewritten_disp_annul (hn : 0 < n) (hn' : n ≤ 29) (hv : v < 2 ^ n) :
    Rewritten w (replaceField (replaceField w 0 (n, v)) 29 (flag annul)) n v annul := by
  have hannul : ∀ {lo m : Nat}, lo + m ≤ 29 ∨ 30 ≤ lo →
      field (replaceField (replaceField w 0 (n, v)) 29 (flag annul)) lo m =
        field (replaceField w 0 (n, v)) lo m := fun h =>
    field_replaceField_of_disjoint _ (by decide) (by decide) (flag_lt annul) h
  refine ⟨?_, bitField_eq (field_replaceField _ (by decide) (by decide) (flag_lt annul)), ?_⟩
  · rw [hannul (by omega), field_replaceField w hn (by omega) hv]
  · intro lo m hlo hm
    rw [hannul hm, field_replaceField_of_disjoint w hn (by omega) hv (by omega)]

theorem rewritten_annul_disp (hn : 0 < n) (hn' : n ≤ 29) (hv : v < 2 ^ n) :
    Rewritten w (replaceField (replaceField w 29 (flag annul)) 0 (n, v)) n v annul := by
  have hdisp : ∀ {lo m : Nat}, n ≤ lo →
      field (replaceField (replaceField w 29 (flag annul)) 0 (n, v)) lo m =
        field (replaceField w 29 (flag annul)) lo m := fun h =>
    field_replaceField_of_disjoint _ hn (by omega) hv (by omega)
  refine ⟨field_replaceField _ hn (by omega) hv, bitField_eq ?_, ?_⟩
  · rw [hdisp hn', flag, field_replaceField w (by decide) (by decide) (flag_lt annul)]
  · intro lo m hlo hm
    rw [hdisp hlo, flag,
      field_replaceField_of_disjoint w (by decide) (by decide) (flag_lt annul) hm]

/-- The same for `BPr`, whose displacement has two more bits above. -/
theorem rewritten_bpr {hi lo : Nat} (hhi : hi < 2 ^ 2) (hlo : lo < 2 ^ 14) {w' : Word}
    (hw' : w' =
      replaceField (replaceField (replaceField w 29 (flag annul)) 20 (2, hi)) 0 (14, lo)) :
    field w' 20 2 = hi ∧ field w' 0 14 = lo ∧ bitField w' 29 = annul ∧
      ∀ l m, 14 ≤ l → l + m ≤ 20 ∨ 22 ≤ l → l + m ≤ 29 ∨ 30 ≤ l → field w' l m = field w l m := by
  have hdisp : ∀ {l m : Nat}, 14 ≤ l → field w' l m =
      field (replaceField (replaceField w 29 (flag annul)) 20 (2, hi)) l m := by
    intro l m h
    rw [hw', field_replaceField_of_disjoint _ (by decide) (by decide) hlo (Or.inr (by omega))]
  have hdisp' : ∀ {l m : Nat}, 14 ≤ l → l + m ≤ 20 ∨ 22 ≤ l →
      field w' l m = field (replaceField w 29 (flag annul)) l m := by
    intro l m h h'
    rw [hdisp h, field_replaceField_of_disjoint _ (by decide) (by decide) hhi h']
  refine ⟨?_, ?_, bitField_eq ?_, ?_⟩
  · rw [hdisp (by decide), field_replaceField _ (by decide) (by decide) hhi]
  · rw [hw', field_replaceField _ (by decide) (by decide) hlo]
  · rw [hdisp' (by decide) (by decide), flag,
      field_replaceField w (by decide) (by decide) (flag_lt annul)]
  · intro l m h h' hm
    rw [hdisp' h h', flag,
      field_replaceField_of_disjoint w (by decide) (by decide) (flag_lt annul) hm]

end Rewriting

/-! ## What is returned has passed the assertions -/

variable {ok : Branch → Bool}

theorem assertBranch_eq_some {w w' : Word} (h : assertBranch w ok = some w') :
    ∃ b, pcRelative w = some (.branch b) ∧ ok b = true := by
  unfold assertBranch at h
  split at h
  case h_1 b hb =>
    simp only [map_eq_some_iff, check_eq_some] at h
    obtain ⟨-, hok, -⟩ := h
    exact ⟨b, hb, hok⟩
  case h_2 => cases h

theorem assertBranch_pos {w : Word} {b : Branch}
    (hb : pcRelative w = some (.branch b)) (hok : ok b = true) : assertBranch w ok = some w := by
  simp [assertBranch, hb, check_pos hok]

section Kinds

variable {w : Word} {b : Branch} {newOffset : Int} {newAnnul : Bool}

/-- A branch that was read has an offset that can be encoded; so an offset that passes the
assertion can be encoded. -/
theorem encodable_of_passed {w₁ w' : Word} {n : Nat} (h : assertBranch w₁ ok = some w')
    (hok : ∀ cfi, ok cfi = true → cfi.kind.dispBits = n ∧ cfi.offsetNBytes = newOffset) :
    Encodable n newOffset := by
  obtain ⟨cfi, hcfi, hpassed⟩ := assertBranch_eq_some h
  obtain ⟨rfl, rfl⟩ := hok cfi hpassed
  exact encodable_offsetNBytes hcfi

/-- A result has an offset that can be encoded; and a routine for floating-point branches has
one only if the annul bit is set. -/
theorem changed_cases (hw : pcRelative w = some (.branch b)) {w' : Word}
    (h : changeBranchOffsetAndAnnulBit w newOffset newAnnul = some w') :
    Encodable b.kind.dispBits newOffset ∧ (b.kind.isFloat = true → newAnnul = true) := by
  obtain ⟨kind, cond, annul, offset⟩ := b
  simp only [changeBranchOffsetAndAnnulBit, hw] at h
  cases kind with
  | bicc | bpcc _ _ | bpr _ _ =>
    obtain ⟨disp, -, h⟩ := exists_of_bind h
    refine ⟨encodable_of_passed h ?_, by simp [isFloat]⟩
    rintro ⟨_ | _ | _ | _ | _, _, _, _⟩ <;>
      simp +contextual [isBicc, isBPcc, isBPr, dispBits]
  | fbfcc | fbpfcc _ _ =>
    obtain ⟨disp, -, h⟩ := exists_of_bind h
    refine ⟨encodable_of_passed h ?_, fun _ => ?_⟩
    · rintro ⟨_ | _ | _ | _ | _, _, _, _⟩ <;>
        simp +contextual [isFBfcc, isFBPfcc, dispBits]
    · obtain ⟨cfi, -, hpassed⟩ := assertBranch_eq_some h
      exact (Bool.and_eq_true_iff.mp (Bool.and_eq_true_iff.mp hpassed).1).2

/-- Bits 22 to 24 tell the kinds apart. -/
def BranchKind.op2 : BranchKind → Nat
  | .bpcc .. => 1
  | .bicc => 2
  | .bpr .. => 3
  | .fbpfcc .. => 5
  | .fbfcc => 6

/-- The fields of a kind of branches: the condition, the displacement, and what tells more. -/
def BranchKind.Fields (w : Word) (cond : Nat) (offset : Int) : BranchKind → Prop
  | .bicc | .fbfcc => field w 25 4 = cond ∧ signedField w 0 22 * 4 = offset
  | .bpcc predict xcc => field w 25 4 = cond ∧ signedField w 0 19 * 4 = offset ∧
      bitField w 19 = predict ∧ bitField w 21 = xcc
  | .fbpfcc predict fccNum => field w 25 4 = cond ∧ signedField w 0 19 * 4 = offset ∧
      bitField w 19 = predict ∧ fccField w 20 = fccNum
  | .bpr predict rs1 => field w 25 3 = cond ∧
      ((field w 20 2 * 2 ^ 14 + field w 0 14 : Nat) : Int).bmod (2 ^ 16) * 4 = offset ∧
      bitField w 19 = predict ∧ regField w 14 = rs1 ∧ bitField w 28 = false

/-- The word has the fields of the branch. -/
structure Spelled (w : Word) (b : Branch) : Prop where
  op : field w 30 2 = 0
  op2 : field w 22 3 = b.kind.op2
  annul : bitField w 29 = b.annul
  fields : b.kind.Fields w b.condition b.offsetNBytes

theorem pcRelative_iff_spelled : pcRelative w = some (.branch b) ↔ Spelled w b := by
  rw [pcRelative_branch_iff]
  constructor
  · rintro ⟨hop, h⟩
    unfold getInformation00 at h
    split at h
    all_goals try split at h
    all_goals simp only [some.injEq, reduceCtorEq] at h
    all_goals subst h
    all_goals refine ⟨hop, ‹_›, rfl, ?_⟩
    all_goals simp_all [Fields]
  · rintro ⟨hop, hop2, hannul, hfields⟩
    obtain ⟨kind, cond, annul, offset⟩ := b
    refine ⟨hop, ?_⟩
    cases kind <;> simp only [op2] at hop2 <;>
      simp only [Fields] at hfields <;>
      simp only [getInformation00, hop2, hannul, hfields, Bool.false_eq_true, if_false]

section Reading

variable {w' : Word} {n v : Nat}

theorem Rewritten.others (hr : Rewritten w w' n v newAnnul) {i : Nat} (hi : i ≠ 29) (hn : n ≤ i) :
    bitField w' i = bitField w i :=
  bitField_congr (hr.rest i 1 hn (by omega))

theorem Rewritten.offset {k : Nat} (hr : Rewritten w w' (k + 1) (newOffset / 4 % 2 ^ (k + 1)).toNat
    newAnnul) (henc : Encodable (k + 1) newOffset) : signedField w' 0 (k + 1) * 4 = newOffset :=
  signedField_disp henc hr.disp

/-- **A rewritten branch is the updated one**, for the kinds with the displacement in one
piece. -/
theorem Rewritten.updatedTo (hw : pcRelative w = some (.branch b)) (hbpr : b.kind.isBPr = false)
    (hr : Rewritten w w' b.kind.dispBits (newOffset / 4 % 2 ^ b.kind.dispBits).toNat newAnnul)
    (henc : Encodable b.kind.dispBits newOffset) : UpdatedTo w b newOffset newAnnul w' := by
  have h := pcRelative_iff_spelled.mp hw
  have hfields := h.fields
  -- the fields that tell the kind and the condition are above the displacement
  have habove : b.kind.dispBits ≤ 22 := by cases b.kind <;> simp [dispBits]
  have hop : field w' 30 2 = 0 := (hr.rest 30 2 (by omega) (by decide)).trans h.op
  have hop2 : field w' 22 3 = b.kind.op2 := (hr.rest 22 3 habove (by decide)).trans h.op2
  have hcond : field w' 25 4 = field w 25 4 := hr.rest 25 4 (by omega) (by decide)
  obtain ⟨kind, cond, annul, offset⟩ := b
  refine ⟨pcRelative_iff_spelled.mpr ⟨hop, hop2, hr.annul, ?_⟩, fun i hi hbit => hr.others hi ?_⟩
  · cases kind with
    | bicc | fbfcc => exact ⟨hcond.trans hfields.1, hr.offset henc⟩
    | bpcc predict xcc =>
      obtain ⟨hc, -, hp, hcc⟩ := hfields
      exact ⟨hcond.trans hc, hr.offset henc, (hr.others (by decide) (le_refl 19)).trans hp,
        (hr.others (by decide) (show 19 ≤ 21 by decide)).trans hcc⟩
    | fbpfcc predict fccNum =>
      obtain ⟨hc, -, hp, hcc⟩ := hfields
      have hcc' : field w' 20 2 = field w 20 2 := hr.rest 20 2 (show 19 ≤ 20 by decide) (by decide)
      exact ⟨hcond.trans hc, hr.offset henc, (hr.others (by decide) (le_refl 19)).trans hp,
        (congrArg (Fin.ofNat 4) hcc').trans hcc⟩
    | bpr predict rs1 => cases hbpr
  · cases kind with
    | bpr predict rs1 => cases hbpr
    | _ => simpa [isDispBit, dispBits] using hbit

end Reading

/-- `BPr`, with its displacement in two pieces. -/
theorem updatedTo_bpr (newAnnul : Bool) {predict annul : Bool} {rs1 : Reg} {cond : Nat}
    {offset : Int} {w' : Word}
    (hw : pcRelative w = some (.branch ⟨.bpr predict rs1, cond, annul, offset⟩))
    (henc : Encodable 16 newOffset)
    (hw' : w' = replaceField (replaceField (replaceField w 29 (flag newAnnul)) 20
      (2, (newOffset / 4 / 2 ^ 14 % 4).toNat)) 0 (14, (newOffset / 4 % 2 ^ 14).toNat)) :
    UpdatedTo w ⟨.bpr predict rs1, cond, annul, offset⟩ newOffset newAnnul w' := by
  obtain ⟨hop, hop2, -, hc, -, hp, hrs1, hbit28⟩ := pcRelative_iff_spelled.mp hw
  obtain ⟨hdhi, hdlo, hannul, hrest⟩ :=
    rewritten_bpr w newAnnul (emod_toNat_lt (newOffset / 4 / 2 ^ 14) 2)
      (emod_toNat_lt (newOffset / 4) 14) hw'
  have hbit : ∀ i, 14 ≤ i → i ≠ 20 → i ≠ 21 → i ≠ 29 → bitField w' i = bitField w i :=
    fun i h h20 h21 h29 => bitField_congr (hrest i 1 h (by omega) (by omega))
  have hr : regField w' 14 = regField w 14 := by
    rw [regField, regField, hrest 14 5 (by decide) (by decide) (by decide)]
  refine ⟨pcRelative_iff_spelled.mpr
    ⟨?_, ?_, hannul, ?_, split_disp16 henc hdhi hdlo, ?_, hr.trans hrs1, ?_⟩,
    fun i hi hout => hbit i ?_ ?_ ?_ hi⟩
  · rw [hrest 30 2 (by decide) (by decide) (by decide), hop]
  · rw [hrest 22 3 (by decide) (by decide) (by decide), hop2]
  · rw [hrest 25 3 (by decide) (by decide) (by decide), hc]
  · rw [hbit 19 (by decide) (by decide) (by decide) (by decide), hp]
  · rw [hbit 28 (by decide) (by decide) (by decide) (by decide), hbit28]
  all_goals simp [isDispBit] at hout; omega

/-- **The routines update the fields**, unless an annul bit of a floating-point branch is to be
cleared. -/
theorem changed_of_encodable (hw : pcRelative w = some (.branch b))
    (henc : Encodable b.kind.dispBits newOffset)
    (hfloat : b.kind.isFloat = true → newAnnul = true) :
    ∃ w', changeBranchOffsetAndAnnulBit w newOffset newAnnul = some w' ∧
      UpdatedTo w b newOffset newAnnul w' := by
  obtain ⟨kind, cond, annul, offset⟩ := b
  simp only [changeBranchOffsetAndAnnulBit, hw]
  cases kind with
  | bicc | bpcc predict xcc =>
    have hup := Rewritten.updatedTo hw rfl (rewritten_disp_annul w newAnnul (Nat.succ_pos _)
      (by simp [dispBits]) (emod_toNat_lt (newOffset / 4) _)) henc
    refine ⟨_, ?_, hup⟩
    simp only [changeBranchOffsetAndAnnulBicc, changeBranchOffsetAndAnnulBPcc,
      dispField_eq (by decide) henc]
    exact assertBranch_pos hup.reads (by simp [isBicc, isBPcc])
  | fbfcc | fbpfcc predict fccNum =>
    have hup := Rewritten.updatedTo hw rfl (rewritten_annul_disp w newAnnul (Nat.succ_pos _)
      (by simp [dispBits]) (emod_toNat_lt (newOffset / 4) _)) henc
    refine ⟨_, ?_, hup⟩
    simp only [changeBranchOffsetAndAnnulFBfcc, changeBranchOffsetAndAnnulFBPfcc,
      dispField_eq (by decide) henc]
    exact assertBranch_pos hup.reads (by simp [isFBfcc, isFBPfcc, hfloat rfl])
  | bpr predict rs1 =>
    have hup := updatedTo_bpr newAnnul hw henc rfl
    refine ⟨_, ?_, hup⟩
    rw [changeBranchOffsetAndAnnulBPr, check_pos henc.1]
    exact assertBranch_pos hup.reads (by simp [isBPr])

/-- **Changing a branch in place** is right exactly when it is not to clear the annul bit of a
floating-point branch. -/
theorem changeBranchOffsetAndAnnulBit_correct_iff (hw : pcRelative w = some (.branch b)) :
    CorrectUpdate w b newOffset newAnnul ↔
      ¬ (b.kind.isFloat = true ∧ newAnnul = false ∧ Encodable b.kind.dispBits newOffset) := by
  constructor
  · rintro h ⟨hfloat, rfl, henc⟩
    obtain ⟨w', hw', -⟩ := h.updates henc
    cases (changed_cases hw hw').2 hfloat
  · intro h
    refine ⟨fun henc => changed_of_encodable hw henc fun hfloat => ?_, fun hne => ?_⟩
    · by_contra hannul
      exact h ⟨hfloat, Bool.eq_false_of_not_eq_true hannul, henc⟩
    · rw [eq_none_iff_forall_ne_some]
      intro w' hw'
      exact hne (changed_cases hw hw').1

/-- `fba` to eight bytes ahead. -/
theorem changeBranchOffset_fba :
    pcRelative 0x11800002 = some (.branch ⟨.fbfcc, 8, false, 8⟩) ∧
      changeBranchOffsetAndAnnulBit 0x11800002 16 false = none ∧
      ¬ CorrectUpdate 0x11800002 ⟨.fbfcc, 8, false, 8⟩ 16 false := by
  have hnone : changeBranchOffsetAndAnnulBit 0x11800002 16 false = none := by decide
  refine ⟨by decide, hnone, fun h => ?_⟩
  obtain ⟨w', hw', -⟩ := h.updates (by decide)
  cases hw'

end Kinds

/-- `be` with a new offset. -/
theorem changeBranchOffset_be :
    CorrectUpdate 0x02800002 ⟨.bicc, 1, false, 8⟩ (-16) true :=
  (changeBranchOffsetAndAnnulBit_correct_iff (by decide)).mpr (by decide)

/-! ## Changing it again -/

theorem bitField_eq_testBit (w : Word) (i : Nat) : bitField w i = w.toNat.testBit i := by
  rw [Nat.testBit_eq_decide_div_mod_eq, bitField, field, pow_one]

/-- The bits of a field. -/
theorem bitField_of_field {w w' : Word} {lo n i : Nat} (h : field w lo n = field w' lo n)
    (hlo : lo ≤ i) (hhi : i < lo + n) : bitField w i = bitField w' i := by
  have hbit : ∀ v : Word, bitField v i = (field v lo n).testBit (i - lo) := by
    intro v
    rw [field, Nat.testBit_mod_two_pow, Nat.testBit_div_two_pow, Nat.sub_add_cancel hlo,
      bitField_eq_testBit, decide_eq_true (show i - lo < n by omega), Bool.true_and]
  rw [hbit w, hbit w', h]

theorem eq_of_bitField {w w' : Word} (h : ∀ i, bitField w i = bitField w' i) : w = w' := by
  apply BitVec.eq_of_getLsbD_eq
  intro i _
  rw [BitVec.getLsbD, BitVec.getLsbD, ← bitField_eq_testBit, ← bitField_eq_testBit, h i]

theorem eq_of_bmod_eq {a b m : Nat} (ha : a < m) (hb : b < m)
    (h : (a : Int).bmod m = (b : Int).bmod m) : a = b := by
  have hmod := congrArg (· % (m : Int)) h
  simp only [Int.bmod_emod] at hmod
  rw [Int.emod_eq_of_lt (by omega) (by omega), Int.emod_eq_of_lt (by omega) (by omega)] at hmod
  exact Int.ofNat.inj hmod

theorem field_eq_of_signedField {w w' : Word} {lo n : Nat}
    (h : signedField w lo n * 4 = signedField w' lo n * 4) : field w lo n = field w' lo n := by
  have heq : signedField w lo n = signedField w' lo n := by omega
  exact eq_of_bmod_eq (field_lt ..) (field_lt ..) heq

/-- The displacement's bits are told by the branch. -/
theorem bitField_of_reads {w w' : Word} {b : Branch} (hw : pcRelative w = some (.branch b))
    (hw' : pcRelative w' = some (.branch b)) {i : Nat} (hi : b.kind.isDispBit i = true) :
    bitField w i = bitField w' i := by
  obtain ⟨-, -, -, hfields⟩ := pcRelative_iff_spelled.mp hw
  obtain ⟨-, -, -, hfields'⟩ := pcRelative_iff_spelled.mp hw'
  obtain ⟨kind, cond, annul, offset⟩ := b
  cases kind with
  | bicc | fbfcc =>
    have hdisp := field_eq_of_signedField (hfields.2.trans hfields'.2.symm)
    exact bitField_of_field hdisp (Nat.zero_le i) (by simpa [isDispBit] using hi)
  | bpcc _ _ | fbpfcc _ _ =>
    have hdisp := field_eq_of_signedField (hfields.2.1.trans hfields'.2.1.symm)
    exact bitField_of_field hdisp (Nat.zero_le i) (by simpa [isDispBit] using hi)
  | bpr predict rs1 =>
    have hoffset := hfields.2.1.trans hfields'.2.1.symm
    have h₁ := field_lt w 20 2
    have h₂ := field_lt w 0 14
    have h₃ := field_lt w' 20 2
    have h₄ := field_lt w' 0 14
    have hdisp := eq_of_bmod_eq (m := 2 ^ 16) (by omega) (by omega)
      (Int.eq_of_mul_eq_mul_right (by decide : (4 : Int) ≠ 0) hoffset)
    have hhigh : field w 20 2 = field w' 20 2 := by omega
    have hlow : field w 0 14 = field w' 0 14 := by omega
    simp only [isDispBit, Bool.or_eq_true, decide_eq_true_eq] at hi
    obtain (hi | rfl) | rfl := hi
    · exact bitField_of_field hlow (Nat.zero_le i) (by omega)
    · exact bitField_of_field hhigh (le_refl _) (by decide)
    · exact bitField_of_field hhigh (by decide) (by decide)

/-- **Updating twice is updating once.** -/
theorem UpdatedTo.again {w w₁ w₂ w₂' : Word} {b : Branch} {d₁ d₂ : Int} {annul : Bool}
    (h₁ : UpdatedTo w b d₁ annul w₁) (h₂ : UpdatedTo w b d₂ annul w₂)
    (h₂' : UpdatedTo w₁ { b with annul := annul, offsetNBytes := d₁ } d₂ annul w₂') : w₂' = w₂ := by
  apply eq_of_bitField
  intro i
  by_cases h29 : i = 29
  · rw [h29, (pcRelative_iff_spelled.mp h₂.reads).annul,
      (pcRelative_iff_spelled.mp h₂'.reads).annul]
  · cases hi : b.kind.isDispBit i with
    | true => exact bitField_of_reads h₂'.reads h₂.reads hi
    | false => rw [h₂'.others i h29 hi, h₁.others i h29 hi, h₂.others i h29 hi]

theorem changeBranchOffset_again {w w' : Word} {d d' : Int} (h : changeBranchOffset w d = some w') :
    changeBranchOffset w' d' = changeBranchOffset w d' := by
  have hw : ∃ b, pcRelative w = some (.branch b) := by
    unfold changeBranchOffset at h
    split at h
    case h_1 b hb => exact ⟨b, hb⟩
    case h_2 => cases h
  obtain ⟨b, hw⟩ := hw
  simp only [changeBranchOffset, hw] at h ⊢
  obtain ⟨henc, hfloat⟩ := changed_cases hw h
  obtain ⟨w₁, hw₁, hup⟩ := changed_of_encodable hw henc hfloat
  obtain rfl : w' = w₁ := mem_unique h hw₁
  have hw' := hup.reads
  simp only [hw']
  by_cases henc' : Encodable b.kind.dispBits d'
  · obtain ⟨w₂, hw₂, hup₂⟩ := changed_of_encodable hw henc' hfloat
    obtain ⟨w₃, hw₃, hup₃⟩ := changed_of_encodable hw' henc' hfloat
    rw [hw₂, hw₃, hup.again hup₂ hup₃]
  · have hnone : ∀ v (b' : Branch), pcRelative v = some (.branch b') → b'.kind = b.kind →
        changeBranchOffsetAndAnnulBit v d' b.annul = none := by
      intro v b' hv hkind
      rw [eq_none_iff_forall_ne_some]
      intro v' hv'
      exact henc' (hkind ▸ (changed_cases hv hv').1)
    rw [hnone w b hw rfl, hnone w' _ hw' rfl]

end Kerninst
