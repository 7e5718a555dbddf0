import Mathlib

/-! LEB128 numbers of any width: what a group of bytes says, what a loop that collects payloads into
a machine word makes of it, and the shortest way to write a number. -/
namespace UnwindCheck.Lib.Leb128

/-- The seven bits of a byte that count. -/
def payload (b : BitVec 8) : ℕ := b.toNat % 128

theorem payload_lt (b : BitVec 8) : payload b < 128 := Nat.mod_lt _ (by decide)

/-- Bytes that announce another one, and a last byte that does not. -/
inductive Group : List (BitVec 8) → Prop
  | last {b : BitVec 8} (hb : b.toNat < 128) : Group [b]
  | more {b : BitVec 8} {bs : List (BitVec 8)} (hb : 128 ≤ b.toNat) (hbs : Group bs) : Group (b :: bs)

def unsignedValue : List (BitVec 8) → ℕ
  | [] => 0
  | b :: bs => payload b + 128 * unsignedValue bs

/-- The last payload is the signed one. -/
def signedValue : List (BitVec 8) → ℤ
  | [] => 0
  | [b] => if payload b < 64 then payload b else payload b - 128
  | b :: bs => payload b + 128 * signedValue bs

def lastPayload (bytes : List (BitVec 8)) : ℕ := (bytes.getLast?.map payload).getD 0

section Groups
variable {bytes group rest : List (BitVec 8)} {b : BitVec 8}

theorem Group.ne_nil (h : Group group) : group ≠ [] := by
  cases h <;> simp

theorem Group.length_pos (h : Group group) : 0 < group.length := List.length_pos_iff.mpr h.ne_nil

theorem signedValue_cons (h : bytes ≠ []) : signedValue (b :: bytes) = payload b + 128 * signedValue bytes := by
  cases bytes with
  | nil => exact absurd rfl h
  | cons c cs => rfl

theorem lastPayload_cons (h : bytes ≠ []) : lastPayload (b :: bytes) = lastPayload bytes := by
  cases bytes with
  | nil => exact absurd rfl h
  | cons c cs => rfl

theorem unsignedValue_lt (bytes : List (BitVec 8)) : unsignedValue bytes < 2 ^ (7 * bytes.length) := by
  induction bytes with
  | nil => simp [unsignedValue]
  | cons b bs ih =>
    have hb := payload_lt b
    have hpow : 2 ^ (7 * (b :: bs).length) = 128 * 2 ^ (7 * bs.length) := by
      rw [List.length_cons, Nat.mul_succ, pow_add]
      ring
    rw [unsignedValue, hpow]
    omega

/-- Signed and unsigned readings differ by the weight of the bit behind the last. -/
theorem Group.signedValue_eq (h : Group group) : signedValue group =
    unsignedValue group - if 64 ≤ lastPayload group then 2 ^ (7 * group.length) else 0 := by
  induction h with
  | @last b hb =>
    have hlt := payload_lt b
    simp only [signedValue, unsignedValue, lastPayload, List.getLast?_singleton, Option.map_some,
      Option.getD_some, List.length_singleton]
    split_ifs <;> omega
  | @more b bs hb hbs ih =>
    have hpow : (2 : ℤ) ^ (7 * (b :: bs).length) = 128 * 2 ^ (7 * bs.length) := by
      rw [List.length_cons, Nat.mul_succ, pow_add]
      ring
    rw [signedValue_cons hbs.ne_nil, lastPayload_cons hbs.ne_nil, ih, unsignedValue, hpow]
    push_cast
    split_ifs <;> ring

/-- A sequence starts with at most one group. -/
theorem group_append_last (hb : b.toNat < 128) :
    (b :: bytes = group ++ rest ∧ Group group) ↔ group = [b] ∧ rest = bytes := by
  constructor
  · rintro ⟨heq, hg⟩
    cases hg with
    | last hb' =>
      cases heq
      exact ⟨rfl, rfl⟩
    | more hb' hbs =>
      cases heq
      omega
  · rintro ⟨rfl, rfl⟩
    exact ⟨rfl, .last hb⟩

theorem group_append_more (hb : 128 ≤ b.toNat) :
    (b :: bytes = group ++ rest ∧ Group group) ↔
      ∃ tail, group = b :: tail ∧ bytes = tail ++ rest ∧ Group tail := by
  constructor
  · rintro ⟨heq, hg⟩
    cases hg with
    | last hb' =>
      cases heq
      omega
    | more hb' hbs =>
      cases heq
      exact ⟨_, rfl, rfl, hbs⟩
  · rintro ⟨tail, rfl, rfl, hg⟩
    exact ⟨rfl, .more hb hg⟩

theorem Group.unique {group' rest' : List (BitVec 8)} (hg : Group group) (hg' : Group group')
    (h : group ++ rest = group' ++ rest') : group = group' := by
  induction hg generalizing group' with
  | @last b hb => exact ((group_append_last hb).mp ⟨h, hg'⟩).1.symm
  | @more b bs hb hbs ih =>
    obtain ⟨tail, rfl, heq, htail⟩ := (group_append_more hb).mp ⟨h, hg'⟩
    rw [ih htail heq]

/-- A group, its last byte apart. -/
theorem group_iff : Group group ↔ ∃ init last, group = init ++ [last] ∧
    (∀ b ∈ init, 128 ≤ b.toNat) ∧ last.toNat < 128 := by
  constructor
  · intro h
    induction h with
    | @last b hb => exact ⟨[], b, rfl, by simp, hb⟩
    | @more b bs hb hbs ih =>
      obtain ⟨init, last, rfl, hinit, hlast⟩ := ih
      exact ⟨b :: init, last, rfl, List.forall_mem_cons.mpr ⟨hb, hinit⟩, hlast⟩
  · rintro ⟨init, last, rfl, hinit, hlast⟩
    induction init with
    | nil => exact .last hlast
    | cons b init ih =>
      obtain ⟨hb, hinit⟩ := List.forall_mem_cons.mp hinit
      exact .more hb (ih hinit)

theorem unsignedValue_append (as bs : List (BitVec 8)) :
    unsignedValue (as ++ bs) = unsignedValue as + 2 ^ (7 * as.length) * unsignedValue bs := by
  induction as with
  | nil => simp [unsignedValue]
  | cons a as ih =>
    rw [List.cons_append, unsignedValue, ih, unsignedValue, List.length_cons, Nat.mul_succ, pow_add]
    ring

end Groups

section Scan
variable (w : ℕ) (fits : (payload shift : ℕ) → Bool)

/-- A loop over the bytes that collects the payloads from bit `shift` on. It gives up where the
shift reaches the width or `fits` refuses a payload, and returns what it has collected, the number
of bytes and the last payload. -/
def scan : (shift : ℕ) → (acc : BitVec w) → List (BitVec 8) → Option (BitVec w × ℕ × ℕ)
  | _, _, [] => none
  | shift, acc, b :: bs =>
    if w ≤ shift ∨ fits (payload b) shift = false then none
    else
      let acc := acc ||| BitVec.ofNat w (payload b * 2 ^ shift)
      if b.toNat < 128 then some (acc, 1, payload b)
      else (scan (shift + 7) acc bs).map fun r => (r.1, r.2.1 + 1, r.2.2)

/-- The bytes the loop does not give up at. -/
def Accepted : (shift : ℕ) → List (BitVec 8) → Prop
  | _, [] => True
  | shift, b :: bs => (shift < w ∧ fits (payload b) shift = true) ∧ Accepted (shift + 7) bs

variable {w fits} {shift : ℕ} {acc : BitVec w} {bytes group : List (BitVec 8)}

/-- The payload goes above the bits collected so far; what does not fit in the word is lost. -/
theorem or_payload (hacc : acc.toNat < 2 ^ shift) (p : ℕ) :
    acc ||| BitVec.ofNat w (p * 2 ^ shift) = BitVec.ofNat w (acc.toNat + p * 2 ^ shift) := by
  have hdisjoint : acc &&& BitVec.ofNat w (p * 2 ^ shift) = 0#w := by
    apply BitVec.eq_of_getLsbD_eq
    intro i hi
    rw [BitVec.getLsbD_and, BitVec.getLsbD_zero, BitVec.getLsbD_ofNat, BitVec.getLsbD]
    by_cases hlow : i < shift
    · rw [← Nat.shiftLeft_eq, Nat.testBit_shiftLeft]
      simp [hlow]
    · have hhigh : acc.toNat < 2 ^ i := hacc.trans_le (Nat.pow_le_pow_right (by decide) (by omega))
      rw [Nat.testBit_lt_two_pow hhigh, Bool.false_and]
  rw [← BitVec.add_eq_or_of_and_eq_zero _ _ hdisjoint, BitVec.ofNat_add, BitVec.ofNat_toNat,
    BitVec.setWidth_eq]

theorem toNat_or_payload_lt (hacc : acc.toNat < 2 ^ shift) (b : BitVec 8) :
    (acc ||| BitVec.ofNat w (payload b * 2 ^ shift)).toNat < 2 ^ (shift + 7) := by
  have hb := payload_lt b
  have hle : payload b * 2 ^ shift ≤ 127 * 2 ^ shift := Nat.mul_le_mul_right _ (by omega)
  rw [or_payload hacc, BitVec.toNat_ofNat]
  refine (Nat.mod_le _ _).trans_lt ?_
  rw [pow_add]
  omega

/-- The value of the bytes after `b`, added to what is collected with it. -/
theorem ofNat_or_payload_add (hacc : acc.toNat < 2 ^ shift) (b : BitVec 8) (tail : List (BitVec 8)) :
    BitVec.ofNat w ((acc ||| BitVec.ofNat w (payload b * 2 ^ shift)).toNat +
        unsignedValue tail * 2 ^ (shift + 7)) =
      BitVec.ofNat w (acc.toNat + unsignedValue (b :: tail) * 2 ^ shift) := by
  have hsum : acc.toNat + unsignedValue (b :: tail) * 2 ^ shift =
      acc.toNat + payload b * 2 ^ shift + unsignedValue tail * 2 ^ (shift + 7) := by
    rw [unsignedValue, pow_add]
    ring
  rw [hsum, BitVec.ofNat_add, BitVec.ofNat_add (acc.toNat + _), BitVec.ofNat_toNat,
    BitVec.setWidth_eq, or_payload hacc]

/-- What the loop returns is read off the group the bytes start with. -/
theorem scan_eq_some_iff (hacc : acc.toNat < 2 ^ shift) {r : BitVec w × ℕ × ℕ} :
    scan w fits shift acc bytes = some r ↔ ∃ group rest, (bytes = group ++ rest ∧ Group group) ∧
      Accepted w fits shift group ∧
        r = (BitVec.ofNat w (acc.toNat + unsignedValue group * 2 ^ shift), group.length,
          lastPayload group) := by
  induction bytes generalizing shift acc r with
  | nil =>
    refine iff_of_false (by simp [scan]) ?_
    rintro ⟨group, rest, ⟨heq, hg⟩, -⟩
    exact hg.ne_nil (List.append_eq_nil_iff.mp heq.symm).1
  | cons b bs ih =>
    unfold scan
    by_cases hstop : w ≤ shift ∨ fits (payload b) shift = false
    · rw [if_pos hstop]
      refine iff_of_false (by simp) ?_
      rintro ⟨group, rest, ⟨heq, hg⟩, hacc, -⟩
      -- the group starts with the byte the loop gives up at
      obtain ⟨c, tail, rfl⟩ := List.exists_cons_of_ne_nil hg.ne_nil
      cases heq
      obtain ⟨⟨hlt, hfits⟩, -⟩ := hacc
      rcases hstop with h | h
      · omega
      · rw [hfits] at h
        cases h
    · rw [if_neg hstop]
      have hgo : shift < w ∧ fits (payload b) shift = true := by simpa using hstop
      by_cases hb : b.toNat < 128
      · simp only [hb, if_true, group_append_last hb]
        constructor
        · intro h
          refine ⟨[b], bs, ⟨rfl, rfl⟩, ⟨hgo, trivial⟩, ?_⟩
          rw [← Option.some.inj h, or_payload hacc]
          simp [unsignedValue, lastPayload]
        · rintro ⟨group, rest, ⟨rfl, rfl⟩, -, rfl⟩
          rw [or_payload hacc]
          simp [unsignedValue, lastPayload]
      · have hb' : 128 ≤ b.toNat := by omega
        simp only [hb, if_false, group_append_more hb', Option.map_eq_some_iff,
          ih (toNat_or_payload_lt hacc b)]
        constructor
        · rintro ⟨r', ⟨tail, rest, ⟨heq, hg⟩, haccepted, rfl⟩, rfl⟩
          refine ⟨b :: tail, rest, ⟨tail, rfl, heq, hg⟩, ⟨hgo, haccepted⟩, ?_⟩
          rw [ofNat_or_payload_add hacc, lastPayload_cons hg.ne_nil]
          rfl
        · rintro ⟨group, rest, ⟨tail, rfl, heq, hg⟩, haccepted, rfl⟩
          refine ⟨_, ⟨tail, rest, ⟨heq, hg⟩, haccepted.2, rfl⟩, ?_⟩
          rw [ofNat_or_payload_add hacc, lastPayload_cons hg.ne_nil]
          rfl

end Scan

section Loops
variable {σ ε : Type}

/-- A loop with fuel over a state that can see the bytes ahead and step past the next one, written to
collect payloads as `scan` does and to put a finish on what it has collected. -/
structure Loop (w : ℕ) (fits : ℕ → ℕ → Bool) (finish : BitVec w → ℕ → ℕ → BitVec w)
    (sees : σ → List (BitVec 8) → Prop) (next : σ → σ)
    (f : (fuel shift : ℕ) → BitVec w → σ → Except ε (BitVec w × σ)) : Prop where
  tooFar : ∀ fuel shift acc s, w ≤ shift → (f fuel shift acc s).toOption = none
  truncated : ∀ fuel shift acc s, sees s [] → (f fuel shift acc s).toOption = none
  byte : ∀ fuel shift acc s b bs, sees s (b :: bs) → shift < w → (f (fuel + 1) shift acc s).toOption =
    if fits (payload b) shift = false then none
    else if b.toNat < 128 then
      some (finish (acc ||| BitVec.ofNat w (payload b * 2 ^ shift)) (shift + 7) (payload b), next s)
    else (f fuel (shift + 7) (acc ||| BitVec.ofNat w (payload b * 2 ^ shift)) (next s)).toOption
  tail : ∀ s b bs, sees s (b :: bs) → sees (next s) bs

/-- With fuel up to the width, the loop finds what `scan` finds. -/
theorem Loop.run {w : ℕ} {fits : ℕ → ℕ → Bool} {finish : BitVec w → ℕ → ℕ → BitVec w}
    {sees : σ → List (BitVec 8) → Prop} {next : σ → σ}
    {f : (fuel shift : ℕ) → BitVec w → σ → Except ε (BitVec w × σ)}
    (hloop : Loop w fits finish sees next f) {fuel shift : ℕ} (hfuel : w ≤ shift + 7 * fuel)
    (acc : BitVec w) {s : σ} {bytes : List (BitVec 8)} (hs : sees s bytes) :
    (f fuel shift acc s).toOption = (scan w fits shift acc bytes).map fun r =>
      (finish r.1 (shift + 7 * r.2.1) r.2.2, next^[r.2.1] s) := by
  induction bytes generalizing fuel shift acc s with
  | nil => exact hloop.truncated fuel shift acc s hs
  | cons b bs ih =>
    rw [scan]
    by_cases hshift : w ≤ shift
    · rw [if_pos (Or.inl hshift)]
      exact hloop.tooFar fuel shift acc s hshift
    · obtain ⟨fuel, rfl⟩ : ∃ k, fuel = k + 1 := ⟨fuel - 1, by omega⟩
      rw [hloop.byte fuel shift acc s b bs hs (by omega)]
      by_cases hfits : fits (payload b) shift = false
      · rw [if_pos hfits, if_pos (Or.inr hfits)]
        rfl
      · have hgo : ¬ (w ≤ shift ∨ fits (payload b) shift = false) := by tauto
        rw [if_neg hfits, if_neg hgo]
        by_cases hlast : b.toNat < 128
        · simp only [hlast, if_true]
          rfl
        · simp only [hlast, if_false]
          rw [ih (by omega) _ (hloop.tail s b bs hs), Option.map_map]
          refine congrArg (Option.map · _) (funext fun r => ?_)
          simp only [Function.comp, Function.iterate_succ]
          rw [show shift + 7 + 7 * r.2.1 = shift + 7 * (r.2.1 + 1) by ring]

end Loops

section Widths
variable {w shift : ℕ} {group : List (BitVec 8)}

/-- Nothing of the payload lies beyond the word. -/
def unsignedFits (w p shift : ℕ) : Bool := decide (w < shift + 7 → p / 2 ^ (w - shift) = 0)

/-- What lies beyond the word repeats its sign bit. -/
def signedFits (w p shift : ℕ) : Bool :=
  decide (w < shift + 7 → p / 2 ^ (w - shift) =
    if p / 2 ^ (w - shift - 1) % 2 = 1 then 2 ^ (7 - (w - shift)) - 1 else 0)

/-- A loop without a check only has to stay below the width. -/
theorem Group.accepted_true (h : Group group) :
    Accepted w (fun _ _ => true) shift group ↔ shift + 7 * (group.length - 1) < w := by
  induction h generalizing shift with
  | last hb => simp [Accepted]
  | @more b bs hb hbs ih =>
    have hlen := hbs.length_pos
    rw [Accepted, ih, List.length_cons]
    simp only [and_true]
    omega

/-- The unsigned loop takes the groups whose value fits. -/
theorem Group.accepted_unsigned (h : Group group) (hs : shift < w) :
    Accepted w (unsignedFits w) shift group ↔
      shift + 7 * (group.length - 1) < w ∧ unsignedValue group < 2 ^ (w - shift) := by
  induction h generalizing shift with
  | @last b hb =>
    have hlt := payload_lt b
    have hfits : unsignedFits w (payload b) shift = true ↔ payload b < 2 ^ (w - shift) := by
      rw [unsignedFits, decide_eq_true_eq]
      by_cases hlow : w < shift + 7
      · have hpos : 0 < 2 ^ (w - shift) := Nat.two_pow_pos _
        rw [Nat.div_eq_zero_iff]
        constructor
        · intro h
          have := h hlow
          omega
        · intro h _
          omega
      · have hroom : 2 ^ 7 ≤ 2 ^ (w - shift) := Nat.pow_le_pow_right (by decide) (by omega)
        exact iff_of_true (fun h => absurd h hlow) (by omega)
    simp [Accepted, hfits, hs, unsignedValue]
  | @more b bs hb hbs ih =>
    have hlt := payload_lt b
    have hlen := hbs.length_pos
    rw [Accepted, List.length_cons, unsignedValue]
    by_cases hnext : shift + 7 < w
    · have hfits : unsignedFits w (payload b) shift = true := by
        rw [unsignedFits, decide_eq_true_eq]
        omega
      have hpow : 2 ^ (w - shift) = 128 * 2 ^ (w - (shift + 7)) := by
        rw [show w - shift = 7 + (w - (shift + 7)) by omega, pow_add]
        norm_num
      rw [ih hnext, hpow]
      simp only [hs, hfits, true_and]
      omega
    · refine iff_of_false ?_ (by omega)
      rintro ⟨-, hrest⟩
      cases hbs with
      | last => exact hnext hrest.1.1
      | more => exact hnext hrest.1.1

/-- In the byte that straddles the end of the word. -/
theorem signed_straddle {m p : ℕ} (hm : 0 < m) (hm7 : m < 7) (hp : p < 128) :
    (p / 2 ^ m = if p / 2 ^ (m - 1) % 2 = 1 then 2 ^ (7 - m) - 1 else 0) ↔
      -(2 : ℤ) ^ (m - 1) ≤ (if p < 64 then (p : ℤ) else p - 128) ∧
        (if p < 64 then (p : ℤ) else p - 128) < 2 ^ (m - 1) := by
  interval_cases m <;> norm_num <;> split_ifs <;> omega

/-- And the signed loop likewise. -/
theorem Group.accepted_signed (h : Group group) (hs : shift < w) :
    Accepted w (signedFits w) shift group ↔ shift + 7 * (group.length - 1) < w ∧
      -(2 : ℤ) ^ (w - 1 - shift) ≤ signedValue group ∧ signedValue group < 2 ^ (w - 1 - shift) := by
  induction h generalizing shift with
  | @last b hb =>
    have hlt := payload_lt b
    have hfits : signedFits w (payload b) shift = true ↔
        -(2 : ℤ) ^ (w - 1 - shift) ≤ signedValue [b] ∧ signedValue [b] < 2 ^ (w - 1 - shift) := by
      rw [signedFits, decide_eq_true_eq, signedValue]
      by_cases hlow : w < shift + 7
      · have hstraddle := @signed_straddle (w - shift) (payload b) (by omega) (by omega) hlt
        rw [show w - 1 - shift = w - shift - 1 by omega, ← hstraddle]
        exact ⟨fun h => h hlow, fun h _ => h⟩
      · have hroom : (2 : ℤ) ^ 6 ≤ 2 ^ (w - 1 - shift) := pow_le_pow_right₀ (by decide) (by omega)
        refine iff_of_true (fun h => absurd h hlow) ?_
        split_ifs <;> omega
    simp [Accepted, hfits, hs]
  | @more b bs hb hbs ih =>
    have hlt := payload_lt b
    have hlen := hbs.length_pos
    rw [Accepted, List.length_cons, signedValue_cons hbs.ne_nil]
    by_cases hnext : shift + 7 < w
    · have hfits : signedFits w (payload b) shift = true := by
        rw [signedFits, decide_eq_true_eq]
        omega
      have hpow : (2 : ℤ) ^ (w - 1 - shift) = 128 * 2 ^ (w - 1 - (shift + 7)) := by
        rw [show w - 1 - shift = 7 + (w - 1 - (shift + 7)) by omega, pow_add]
        norm_num
      rw [ih hnext, hpow]
      simp only [hs, hfits, true_and]
      omega
    · refine iff_of_false ?_ (by omega)
      rintro ⟨-, hrest⟩
      cases hbs with
      | last => exact hnext hrest.1.1
      | more => exact hnext hrest.1.1

/-- The sign of a group that ends inside the word, put on what the loop collected. -/
def signExtended (v : BitVec w) (shift p : ℕ) : BitVec w :=
  if shift < w ∧ 64 ≤ p then v ||| BitVec.ofInt w (-(2 ^ shift)) else v

theorem ofInt_add_mul (a k : ℤ) : BitVec.ofInt w (a + (2 ^ w : ℕ) * k) = BitVec.ofInt w a := by
  apply BitVec.eq_of_toInt_eq
  rw [BitVec.toInt_ofInt, BitVec.toInt_ofInt, Int.add_mul_bmod_self_left]

/-- Below the width, the bits above a group are ones. -/
theorem ofInt_neg_two_pow {k : ℕ} (hk : k ≤ w) :
    BitVec.ofInt w (-(2 ^ k)) = BitVec.ofNat w ((2 ^ (w - k) - 1) * 2 ^ k) := by
  have hpow : 2 ^ w = 2 ^ (w - k) * 2 ^ k := by rw [← pow_add, Nat.sub_add_cancel hk]
  have hcast : (((2 ^ (w - k) - 1) * 2 ^ k : ℕ) : ℤ) = -(2 ^ k) + (2 ^ w : ℕ) * 1 := by
    rw [hpow, Nat.cast_mul, Nat.cast_sub (Nat.two_pow_pos _)]
    push_cast
    ring
  rw [← BitVec.ofInt_natCast, hcast, ofInt_add_mul]

/-- Either way the word holds the signed value: beyond the width it does so by itself. -/
theorem Group.signExtended_eq (h : Group group) :
    signExtended (BitVec.ofNat w (unsignedValue group)) (7 * group.length) (lastPayload group) =
      BitVec.ofInt w (signedValue group) := by
  have hlt := unsignedValue_lt group
  rw [h.signedValue_eq]
  unfold signExtended
  by_cases hneg : 64 ≤ lastPayload group
  · rw [if_pos hneg, sub_eq_add_neg]
    by_cases hshift : 7 * group.length < w
    · have hacc : (BitVec.ofNat w (unsignedValue group)).toNat < 2 ^ (7 * group.length) := by
        rw [BitVec.toNat_ofNat]
        exact (Nat.mod_le _ _).trans_lt hlt
      rw [if_pos ⟨hshift, hneg⟩, BitVec.ofInt_add, BitVec.ofInt_natCast, ofInt_neg_two_pow hshift.le,
        or_payload hacc, BitVec.ofNat_add, BitVec.ofNat_toNat, BitVec.setWidth_eq]
    · have hpow : -(2 : ℤ) ^ (7 * group.length) = (2 ^ w : ℕ) * -(2 ^ (7 * group.length - w)) := by
        push_cast
        rw [mul_neg, ← pow_add, Nat.add_sub_cancel' (by omega)]
      rw [if_neg (by omega), hpow, ofInt_add_mul, BitVec.ofInt_natCast]
  · rw [if_neg hneg, if_neg (by omega), sub_zero, BitVec.ofInt_natCast]

end Widths

section Encode

/-- The byte with the low seven bits of a number, announcing another one or not. -/
def byteOf (more : Bool) (z : ℤ) : BitVec 8 := BitVec.ofNat 8 ((z % 128).toNat + if more then 128 else 0)

theorem toNat_byteOf (more : Bool) (z : ℤ) :
    (byteOf more z).toNat = (z % 128).toNat + if more then 128 else 0 := by
  rw [byteOf, BitVec.toNat_ofNat]
  refine Nat.mod_eq_of_lt ?_
  split_ifs <;> omega

theorem payload_byteOf (more : Bool) (z : ℤ) : (payload (byteOf more z) : ℤ) = z % 128 := by
  rw [payload, toNat_byteOf]
  split_ifs <;> omega

/-- The shortest group for a number. -/
def encodeUnsigned (n : ℕ) : List (BitVec 8) :=
  if n < 128 then [byteOf false n] else byteOf true n :: encodeUnsigned (n / 128)
termination_by n
decreasing_by omega

/-- Arithmetic shifts until the rest is the sign of the last payload. -/
def encodeSigned (z : ℤ) : List (BitVec 8) :=
  if -64 ≤ z ∧ z < 64 then [byteOf false z] else byteOf true z :: encodeSigned (z / 128)
termination_by z.natAbs
decreasing_by omega

theorem encodeUnsigned_spec (n : ℕ) :
    Group (encodeUnsigned n) ∧ unsignedValue (encodeUnsigned n) = n ∧
      ∀ k, n < 128 ^ (k + 1) → (encodeUnsigned n).length ≤ k + 1 := by
  fun_induction encodeUnsigned n with
  | case1 n hlt =>
    have hpayload := payload_byteOf false n
    have hbyte := toNat_byteOf false n
    refine ⟨.last (by simp at hbyte; omega), ?_, by simp⟩
    simp only [unsignedValue]
    omega
  | case2 n hge ih =>
    obtain ⟨hgroup, hvalue, hlen⟩ := ih
    have hpayload := payload_byteOf true n
    have hbyte := toNat_byteOf true n
    refine ⟨.more (by simp at hbyte; omega) hgroup, ?_, ?_⟩
    · rw [unsignedValue, hvalue]
      omega
    · intro k hk
      cases k with
      | zero =>
        rw [zero_add, pow_one] at hk
        omega
      | succ k =>
        rw [pow_succ] at hk
        have hrest := hlen k (by omega)
        rw [List.length_cons]
        omega

theorem encodeSigned_spec (z : ℤ) :
    Group (encodeSigned z) ∧ signedValue (encodeSigned z) = z ∧
      ∀ k : ℕ, -(64 * 128 ^ k) ≤ z → z < 64 * 128 ^ k → (encodeSigned z).length ≤ k + 1 := by
  fun_induction encodeSigned z with
  | case1 z hlt =>
    have hpayload := payload_byteOf false z
    have hbyte := toNat_byteOf false z
    refine ⟨.last (by simp at hbyte; omega), ?_, by simp⟩
    rw [signedValue]
    split_ifs <;> omega
  | case2 z hge ih =>
    obtain ⟨hgroup, hvalue, hlen⟩ := ih
    have hpayload := payload_byteOf true z
    have hbyte := toNat_byteOf true z
    refine ⟨.more (by simp at hbyte; omega) hgroup, ?_, ?_⟩
    · rw [signedValue_cons hgroup.ne_nil, hvalue]
      omega
    · intro k hlo hhi
      cases k with
      | zero =>
        rw [pow_zero, mul_one] at hlo hhi
        omega
      | succ k =>
        rw [pow_succ] at hlo hhi
        have hrest := hlen k (by omega) (by omega)
        rw [List.length_cons]
        omega

end Encode

end UnwindCheck.Lib.Leb128
