import GetterRename.Proofs.Source.Lookahead
import GetterRename.Text.Quoted

/-!
# Quoted text is a string literal

A character between quotes is written so that no quote ends the literal: the quote and the backslash
stand behind a backslash, and no byte of any other character is one of these two.  So reading a
quoted text as a string literal comes to its end at the closing quote and not before.  A newline is
never printed, so the literal stays on its line.

* `Extent.Passed` — what a string literal reads on the way to its closing quote;
* `Quoted.passed_escape` — a character between quotes is passed;
* `Quoted.exists_body` — quoted text is one string literal.
-/

namespace GetterRename

namespace Extent

/-- Reading a string literal passes over the text, which is on one line. -/
structure Passed (text : Bytes) : Prop where
  line : byte '\n' ∉ text
  passes : ∀ z, string? (text ++ z) = (string? z).map (· + text.length)

/-- A byte that a string literal takes as it is. -/
def IsPlain (b : UInt8) : Prop := b ≠ byte '\n' ∧ b ≠ byte '"' ∧ b ≠ byte '\\'

namespace Passed

theorem nil : Passed [] := ⟨by simp, fun z => by simp⟩

theorem append {a b : Bytes} (ha : Passed a) (hb : Passed b) : Passed (a ++ b) := by
  refine ⟨fun hmem => (List.mem_append.1 hmem).elim ha.line hb.line, fun z => ?_⟩
  rw [List.append_assoc, ha.passes, hb.passes, Option.map_map, List.length_append]
  exact congrArg (Option.map · _) (funext fun n => by simp only [Function.comp_apply]; omega)

theorem flatMap {α : Type} {l : List α} {f : α → Bytes} (h : ∀ a ∈ l, Passed (f a)) :
    Passed (l.flatMap f) := by
  induction l with
  | nil => exact nil
  | cons a l ih =>
    obtain ⟨ha, hl⟩ := List.forall_mem_cons.1 h
    rw [List.flatMap_cons]
    exact ha.append (ih hl)

theorem plain {b : UInt8} (h : IsPlain b) : Passed [b] := by
  refine ⟨fun hmem => h.1 (List.mem_singleton.1 hmem).symm, fun z => ?_⟩
  cases z <;> simp [string?, h.2.1, h.2.2]

theorem of_forall {text : Bytes} (h : ∀ b ∈ text, IsPlain b) : Passed text := by
  have hbytes := flatMap (f := fun b => [b]) fun b hb => plain (h b hb)
  simpa using hbytes

theorem escaped {c : UInt8} (hc : c ≠ byte '\n') : Passed [byte '\\', c] := by
  refine ⟨?_, fun z => by simp [string?]⟩
  simp only [List.mem_cons, List.not_mem_nil, or_false, not_or]
  exact ⟨by decide, hc.symm⟩

end Passed

end Extent

namespace Quoted

open Extent (Passed IsPlain)

theorem hexDigit_plain (n : Nat) : IsPlain (Bytes.hexDigit n) := by
  have hdigits : ∀ d < 16, (if d < 10 then 48 + d else 87 + d).toUInt8 ≠ byte '\n' ∧
      (if d < 10 then 48 + d else 87 + d).toUInt8 ≠ byte '"' ∧
      (if d < 10 then 48 + d else 87 + d).toUInt8 ≠ byte '\\' := by decide +kernel
  exact hdigits (n % 16) (Nat.mod_lt n (by decide))

theorem hex_plain (width n : Nat) : ∀ b ∈ Bytes.hex width n, IsPlain b := by
  induction width generalizing n with
  | zero => simp [Bytes.hex]
  | succ width ih =>
    intro b hb
    rcases List.mem_append.1 hb with hb | hb
    · exact ih (n / 16) b hb
    · obtain rfl := List.mem_singleton.1 hb
      exact hexDigit_plain n

theorem passed_hex {letter : UInt8} (hletter : letter ≠ byte '\n') (width n : Nat) :
    Passed (byte '\\' :: letter :: Bytes.hex width n) :=
  (Passed.escaped hletter).append (.of_forall (hex_plain width n))

theorem encode_above {code : Nat} (h : 0x80 ≤ code) : ∀ b ∈ Utf8.encode code, 0x80 ≤ b := by
  have hbyte : ∀ {n : Nat}, 0x80 ≤ n → n < 0x100 → (0x80 : UInt8) ≤ n.toUInt8 := by
    intro n hlow hhigh
    rw [UInt8.le_iff_toNat_le, Nat.toUInt8_eq, UInt8.toNat_ofNat_of_lt' hhigh]
    exact hlow
  unfold Utf8.encode
  rw [if_neg (by omega)]
  split
  · simp only [List.forall_mem_cons]
    exact ⟨hbyte (by omega) (by omega), hbyte (by omega) (by omega), by simp⟩
  split
  · decide +kernel
  rename_i hrange
  simp only [Bool.or_eq_true, decide_eq_true_eq, not_or] at hrange
  split
  · simp only [List.forall_mem_cons]
    exact ⟨hbyte (by omega) (by omega), hbyte (by omega) (by omega), hbyte (by omega) (by omega),
      by simp⟩
  · simp only [List.forall_mem_cons]
    exact ⟨hbyte (by omega) (by omega), hbyte (by omega) (by omega), hbyte (by omega) (by omega),
      hbyte (by omega) (by omega), by simp⟩

theorem passed_encode {code : Nat} (hline : code ≠ '\n'.toNat) (hquote : code ≠ '"'.toNat)
    (hescape : code ≠ '\\'.toNat) : Passed (Utf8.encode code) := by
  by_cases hcode : code < 0x80
  · have hbyte {c : Char} (hc : (byte c).toNat = c.toNat) (h : code.toUInt8 = byte c) :
        code = c.toNat := by
      rw [← hc, ← h, Nat.toUInt8_eq, UInt8.toNat_ofNat_of_lt' (Nat.lt_trans hcode (by decide))]
    rw [Utf8.encode, if_pos hcode]
    refine .plain ⟨fun h => hline ?_, fun h => hquote ?_, fun h => hescape ?_⟩ <;>
      exact hbyte rfl h
  · refine .of_forall fun b hb => ?_
    have habove := encode_above (by omega) b hb
    refine ⟨?_, ?_, ?_⟩ <;> rintro rfl <;> exact absurd habove (by decide)

theorem shortEscape?_ne_newline {code : Nat} {letter : Char} (h : shortEscape? code = some letter) :
    byte letter ≠ byte '\n' := by
  unfold shortEscape? at h
  split at h
  case h_8 => cases h
  all_goals
    obtain rfl := Option.some.inj h
    decide

theorem passed_escape (code : Nat) : Passed (escape '"' code) := by
  unfold escape
  split
  · rename_i hcode
    simp only [Bool.or_eq_true, decide_eq_true_eq] at hcode
    rcases hcode with rfl | rfl <;> exact .escaped (by decide)
  rename_i hcode
  simp only [Bool.or_eq_true, decide_eq_true_eq, not_or] at hcode
  split
  · rename_i hprintable
    refine passed_encode ?_ hcode.1 hcode.2
    rintro rfl
    exact absurd hprintable (by decide +kernel)
  split
  · rename_i letter hletter
    exact .escaped (shortEscape?_ne_newline hletter)
  split
  · exact @passed_hex (byte 'x') (by decide) 2 code
  split
  · exact @passed_hex (byte 'u') (by decide) 4 code
  · exact @passed_hex (byte 'U') (by decide) 8 code

/-- **Quoted text is one string literal** on one line, whatever the text is and whatever follows. -/
theorem exists_body (text : Bytes) :
    ∃ body, string text = byte '"' :: body ∧ byte '\n' ∉ string text ∧
      ∀ z, Extent.string? (body ++ z) = some body.length := by
  obtain ⟨shown, hstring, hshown⟩ :
      ∃ shown, string text = byte '"' :: (shown ++ [byte '"']) ∧ Passed shown := by
    refine ⟨_, rfl, .flatMap ?_⟩
    rintro ⟨code, bytes⟩ -
    cases code with
    | some code => exact passed_escape code
    | none => exact .flatMap fun b _ => @passed_hex (byte 'x') (by decide) 2 b.toNat
  have hquote : ∀ z, Extent.string? (byte '"' :: z) = some 1 := by
    intro z
    have hne : byte '"' ≠ byte '\\' := by decide
    cases z <;> simp [Extent.string?, hne]
  refine ⟨_, hstring, ?_, fun z => ?_⟩
  · have hline : byte '\n' ≠ byte '"' := by decide
    simp [hstring, hshown.line, hline]
  · rw [List.append_assoc, hshown.passes, List.singleton_append, hquote, List.length_append]
    simp [Nat.add_comm]

end Quoted

end GetterRename
