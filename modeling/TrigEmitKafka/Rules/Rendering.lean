import TrigEmitKafka.Rules.Readers
import TrigEmitKafka.Source.Commands

/-!
# Rules — what is rendered into a buffer

`rendering` is the text of all parameters.  What `kafka_table_describe_params` leaves before the
terminator is a prefix of it (`described_eq`), and on the buffer itself nothing is written, and
no pointer is formed, outside (`describeBuffer_spec`).

A stored name or value is at most as long as `kafka_connection_param` accepts (`Storable`), so a
line's length is an `int`.
-/

namespace TrigEmit

/-! ### Buffers -/

namespace Buffer

/-- A write keeps a buffer's size. -/
theorem length_write {buf buf' : Buffer} {off : Nat} {bs : List UInt8}
    (h : buf.write off bs = some buf') : buf'.length = buf.length := by
  simp only [write] at h
  split at h
  · cases h
    simp
    omega
  · cases h

/-- A write where `pre` ends, over `old`. -/
theorem write_append (pre old rest bs : List UInt8) (h : bs.length = old.length) :
    write (pre ++ (old ++ rest)) pre.length bs = some (pre ++ (bs ++ rest)) := by
  unfold write
  rw [if_pos (by simp only [List.length_append]; omega), h]
  simp [List.take_left', ← List.drop_drop]

/-- The text before a terminator is what a C function reads. -/
theorem cstr_append (s : CStr) (rest : List UInt8) : cstr (s.1 ++ 0 :: rest) = some s := by
  have hmem : (0 : UInt8) ∈ s.1 ++ 0 :: rest :=
    List.mem_append_right _ List.mem_cons_self
  rw [cstr, if_pos hmem]
  refine congrArg some (Subtype.ext ?_)
  have hs : ∀ b ∈ s.1, (decide (b ≠ 0)) = true := fun b hb =>
    decide_eq_true fun e => s.2 (e ▸ hb)
  show (s.1 ++ 0 :: rest).takeWhile (· ≠ 0) = s.1
  rw [List.takeWhile_append_of_pos hs]
  simp

/-- The copy of a counted argument stays within argument and buffer, and reads as its C string. -/
theorem copyArg_exact {buf : Buffer} {arg : List UInt8} (h : arg.length < buf.length) :
    ∃ b, buf.copyArg arg arg.length = some b ∧ b.length = buf.length ∧
      b.cstr = some (CStr.ofBytes arg) := by
  have hcopy : buf.copyArg arg arg.length =
      some (arg ++ [0] ++ buf.drop (arg.length + 1)) := by
    have hlen : arg.length + (buf.length - arg.length) = buf.length := by omega
    rw [copyArg, if_pos (le_refl _), List.take_length, write, if_pos (by omega),
      Option.bind_some, write, if_pos (by simp; omega)]
    simp [List.drop_drop]
  refine ⟨_, hcopy, ?_, ?_⟩
  · simp only [List.length_append, List.length_singleton, List.length_drop]
    omega
  · rw [cstr, if_pos (by simp)]
    refine congrArg some (Subtype.ext ?_)
    simp only [CStr.ofBytes, List.append_assoc]
    rw [List.takeWhile_append]
    split
    · rename_i hall
      rw [(List.takeWhile_prefix _).eq_of_length hall]
      simp
    · rfl

end Buffer

/-- The copy a function takes of an argument that fits is its C string. -/
theorem localCopy_eq {limit : Nat} {bs : List UInt8} (h : bs.length ≤ limit) :
    localCopy limit bs = some (CStr.ofBytes bs) := by
  have hlen : bs.length < (List.replicate (limit + 1) (255 : UInt8)).length := by
    rw [List.length_replicate]
    omega
  obtain ⟨b, hb, -, hstr⟩ := Buffer.copyArg_exact hlen
  rw [localCopy, hb]
  exact hstr

theorem terminated_eq {limit : Nat} {bs : List UInt8} (h₁ : bs.length ≠ 0)
    (h₂ : bs.length ≤ limit) : terminated limit (some bs) = some (CStr.ofBytes bs) := by
  rw [terminated, if_neg (by omega)]
  exact localCopy_eq h₂

/-! ### The text -/

/-- What is printed of all parameters. -/
def rendering (ps : List (CStr × CStr)) : List UInt8 := (ps.map shownParam).flatten

@[simp] theorem rendering_nil : rendering [] = [] := rfl

@[simp] theorem rendering_cons (p : CStr × CStr) (ps : List (CStr × CStr)) :
    rendering (p :: ps) = shownParam p ++ rendering ps := rfl

theorem zero_notMem_paramLine (name shown : CStr) : (0 : UInt8) ∉ paramLine name shown := by
  simp only [paramLine, List.mem_append, not_or]
  exact ⟨⟨⟨⟨(CStr.lit "  ").2, name.2⟩, (CStr.lit " = ").2⟩, shown.2⟩, (CStr.lit "\n").2⟩

/-- Names and values as `kafka_connection_param` passes them on. -/
def Storable (ps : List (CStr × CStr)) : Prop :=
  ∀ p ∈ ps, p.1.1.length ≤ maxSetupVarLen ∧ p.2.1.length ≤ maxSetupVarLen

/-- A line's length is an `int`. -/
theorem length_shownParam {p : CStr × CStr} (h₁ : p.1.1.length ≤ maxSetupVarLen)
    (h₂ : p.2.1.length ≤ maxSetupVarLen) : (shownParam p).length < 2 ^ 31 := by
  have hl : (CStr.lit "  ").1.length = 2 ∧ (CStr.lit " = ").1.length = 3 ∧
      (CStr.lit "\n").1.length = 1 ∧ (CStr.lit "********").1.length = 8 := by decide
  obtain ⟨ha, hb, hc, hd⟩ := hl
  unfold maxSetupVarLen at h₁ h₂
  simp only [shownParam, paramLine, List.length_append, ha, hb, hc]
  split <;> omega

theorem described_cons (buflen : Nat) (p : CStr × CStr) (ps : List (CStr × CStr)) (used : Nat)
    (buf : List UInt8) : described buflen (p :: ps) used buf =
      if used + 1 < buflen then
        if (shownParam p).length < 2 ^ 31 then
          described buflen ps (used + (shownParam p).length)
            (buf ++ (shownParam p).take (buflen - used - 1))
        else buf ++ (shownParam p).take (buflen - used - 1)
      else buf := rfl

/-- What is appended to a text that fits, cut to the buffer. -/
theorem append_take {pre line : List UInt8} {n : Nat} (h : pre.length ≤ n) :
    pre ++ line.take (n - pre.length) = (pre ++ line).take n := by
  rw [List.take_append, List.take_of_length_le h]

/-- **What is left in the buffer is a prefix of the rendering**: `pre` was rendered before. -/
theorem described_eq {buflen : Nat} (ps : List (CStr × CStr)) (pre : List UInt8)
    (hb : buflen ≤ 2 ^ 31 ∨ Storable ps) :
    described buflen ps pre.length (pre.take (buflen - 1)) =
      (pre ++ rendering ps).take (buflen - 1) := by
  induction ps generalizing pre with
  | nil => rw [rendering_nil, List.append_nil]; rfl
  | cons p ps ih =>
      rw [described_cons, rendering_cons, ← List.append_assoc]
      by_cases hu : pre.length + 1 < buflen
      · have hpre : pre.take (buflen - 1) = pre := List.take_of_length_le (by omega)
        rw [if_pos hu, hpre, Nat.sub_right_comm, append_take (by omega)]
        by_cases hl : (shownParam p).length < 2 ^ 31
        · rw [if_pos hl, ← List.length_append]
          exact ih _ (hb.imp_right fun h q hq => h q (List.mem_cons_of_mem _ hq))
        · -- a line no `int` counts fills any buffer that one does
          rw [if_neg hl]
          rcases hb with hb | hb
          · have hfull : buflen - 1 ≤ (pre ++ shownParam p).length := by
              rw [List.length_append]; omega
            exact (List.take_append_of_le_length hfull).symm
          · obtain ⟨h₁, h₂⟩ := hb p List.mem_cons_self
            exact absurd (length_shownParam h₁ h₂) hl
      · rw [if_neg hu, List.append_assoc, List.take_append_of_le_length (by omega)]

theorem described_start {buflen : Nat} {ps : List (CStr × CStr)}
    (hb : buflen ≤ 2 ^ 31 ∨ Storable ps) :
    described buflen ps 0 [] = (rendering ps).take (buflen - 1) := by
  simpa using described_eq ps [] hb

/-- Only what is shown of the parameters matters. -/
theorem described_congr {ps qs : List (CStr × CStr)} (h : ps.map shownParam = qs.map shownParam)
    (buflen used : Nat) (buf : List UInt8) :
    described buflen ps used buf = described buflen qs used buf := by
  induction ps generalizing qs used buf with
  | nil =>
      obtain rfl : qs = [] := by simpa using h.symm
      rfl
  | cons p ps ih =>
      cases qs with
      | nil => cases h
      | cons q qs =>
          obtain ⟨hp, hps⟩ := List.cons.inj h
          rw [described_cons, described_cons, hp, ih hps]

/-! ### The buffer itself -/

/-- The loop keeps a buffer that holds a prefix of what was rendered, and its terminator. -/
theorem describeInto_spec {buflen : Nat} (hb : buflen ≤ ptrdiffMax) (ps : List (CStr × CStr))
    (hps : Storable ps) (pre : CStr) (rest : List UInt8) (used : Nat)
    (hlen : (pre.1 ++ 0 :: rest).length = buflen) (hu : used + 1 < buflen → pre.1.length = used)
    (hu' : used ≤ buflen + 2 ^ 31) :
    ∃ buf' : Buffer, describeInto buflen ps used (pre.1 ++ 0 :: rest) = some buf' ∧
      buf'.length = buflen ∧ ∃ s : CStr, buf'.cstr = some s ∧
        s.1 = described buflen ps used pre.1 := by
  have hmax : ptrdiffMax = 2 ^ 63 - 1 := rfl
  induction ps generalizing pre rest used with
  | nil => exact ⟨_, rfl, hlen, pre, Buffer.cstr_append pre rest, rfl⟩
  | cons p ps ih =>
      have hsize : sizeT (used + 1) = used + 1 := Nat.mod_eq_of_lt (by omega)
      rw [describeInto, hsize, described_cons]
      by_cases hlt : used + 1 < buflen
      swap
      · rw [if_neg hlt, if_neg hlt]
        exact ⟨_, rfl, hlen, pre, Buffer.cstr_append pre rest, rfl⟩
      rw [if_pos hlt, if_pos hlt]
      have hused := hu hlt
      obtain ⟨h₁, h₂⟩ := hps p List.mem_cons_self
      have hl := length_shownParam h₁ h₂
      have hroom : sizeSub buflen used = buflen - used := by
        unfold sizeSub; omega
      -- the line is cut to the room that is left, and terminated
      set cut := (shownParam p).take (buflen - used - 1) with hcut
      have hcutlen : cut.length ≤ buflen - used - 1 := by
        rw [hcut, List.length_take]; omega
      have hrest : rest.length + 1 + used = buflen := by
        rw [← hlen, ← hused]; simp only [List.length_append, List.length_cons]; omega
      obtain ⟨old, rest', hsplit, hold⟩ : ∃ old rest', (0 :: rest : List UInt8) = old ++ rest' ∧
          (cut ++ [0]).length = old.length := by
        refine ⟨(0 :: rest).take (cut.length + 1), (0 :: rest).drop (cut.length + 1),
          (List.take_append_drop _ _).symm, ?_⟩
        simp only [List.length_append, List.length_take, List.length_cons, List.length_nil]
        rw [Nat.min_eq_left (by omega)]
      have hwrite : Buffer.snprintf (pre.1 ++ 0 :: rest) used (buflen - used) (shownParam p) =
          some (pre.1 ++ (cut ++ [0] ++ rest'), ((shownParam p).length : Int)) := by
        unfold Buffer.snprintf
        rw [if_pos (by omega), if_neg (by omega), ← hcut, hsplit, ← hused,
          Buffer.write_append _ _ _ _ hold, Option.map_some, snprintfResult, if_pos hl]
      rw [hroom, hwrite, Option.bind_some, if_pos hl]
      dsimp only
      rw [if_neg (by omega), Int.toNat_natCast]
      have hadd : sizeT (used + (shownParam p).length) = used + (shownParam p).length :=
        Nat.mod_eq_of_lt (by omega)
      have hzero : (0 : UInt8) ∉ pre.1 ++ cut := fun h => by
        rcases List.mem_append.mp h with h | h
        · exact pre.2 h
        · exact zero_notMem_paramLine _ _ (List.mem_of_mem_take h)
      have hnew : pre.1 ++ (cut ++ [0] ++ rest') = (pre.1 ++ cut) ++ 0 :: rest' := by simp
      rw [hadd, hnew]
      refine ih (fun q hq => hps q (List.mem_cons_of_mem _ hq)) ⟨pre.1 ++ cut, hzero⟩ rest' _ ?_ ?_
        ?_
      · rw [← hnew, ← hlen, hsplit]
        simp only [List.length_append] at hold ⊢
        omega
      · intro hlt'
        have hcutl : cut.length = (shownParam p).length := by
          rw [hcut, List.length_take]; omega
        simp only [List.length_append, hcutl, hused]
      · omega

/-- **`kafka_table_describe_params` stays in its buffer**, and leaves it terminated. -/
theorem describeBuffer_spec {ps : List (CStr × CStr)} {buf : Buffer} (hps : Storable ps)
    (h₁ : 1 ≤ buf.length) (h₂ : buf.length ≤ ptrdiffMax) :
    ∃ buf' : Buffer, describeBuffer ps buf = some buf' ∧ buf'.length = buf.length ∧
      ∃ s : CStr, buf'.cstr = some s ∧ s.1 = described buf.length ps 0 [] := by
  obtain ⟨x, rest, rfl⟩ : ∃ x rest, buf = x :: rest := by
    cases buf with
    | nil => simp at h₁
    | cons x rest => exact ⟨x, rest, rfl⟩
  have hfirst : Buffer.write (x :: rest) 0 [0] = some (0 :: rest) :=
    Buffer.write_append [] [x] rest [0] rfl
  rw [describeBuffer, hfirst, Option.bind_some]
  exact describeInto_spec h₂ ps hps CStr.empty rest 0 rfl (fun _ => rfl) (by omega)

end TrigEmit
