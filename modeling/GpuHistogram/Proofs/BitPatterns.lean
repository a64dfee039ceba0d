/-
Bit patterns of values. An integer of any type is its bits and an unsigned number the same bits without a sign, so what
goes through the unsigned type of the same size comes back as it was.

Model: `SwapMeets` lists what a compare-and-swap statement finds, `SwapLeaves` what it leaves. Both speak of the bits of
the element, of the expected value and of the new one; the statement compares at the unsigned type and stores at the type
of the array.

Results:
- `toBits_injOn`: two values of one type with the same bits are equal;
- `exec_compareSwap_leaves`: a swap stores the new bits if it found the expected ones, and nothing else;
- `compareSwap_sameBits`: a swap of two values taken bit by bit, as the code of an update writes it, compares and stores the
  values themselves;
- `bit_patterns`: all of it together, with the bits of a value given by its bits.
-/
import GpuHistogram.Code.Build
import GpuHistogram.Proofs.Arrays
import GpuHistogram.Proofs.Steps
import GpuHistogram.Proofs.Values
import Mathlib.Data.Set.Function

namespace GpuHistogram

theorem Scalar.bits_bitPattern (s : Scalar) : s.bitPattern.bits = s.bits := by
  simp only [bits, bytes_bitPattern]

theorem Scalar.isInteger_of_not_isFloat {s : Scalar} (hf : s.isFloat = false) (hb : s ≠ .bool) : s.isInteger = true := by
  simpa only [hf, Bool.or_false] using s.isInteger_or_isFloat hb

namespace Value

variable {s : Scalar} {v : Value}

/-- a truth value or an integer is determined by its bits -/
theorem ofBits_toBits_of_not_isFloat (h : Fits s v) (hf : s.isFloat = false) : ofBits v.toBits s = v := by
  by_cases hb : s = .bool
  · subst hb
    cases v with
    | bool b => cases b <;> rfl
    | int x t => exact absurd h.2.1 (by decide)
    | float b t => exact absurd h.2 (by decide)
  · exact ofBits_toBits h (Scalar.isInteger_of_not_isFloat hf hb)

/-- two values of one type with the same bits are equal -/
theorem toBits_injOn (s : Scalar) : Set.InjOn toBits {v | Fits s v} := by
  intro v hv w hw h
  rcases Bool.eq_false_or_eq_true s.isFloat with hf | hf
  · have hfloat {u : Value} (hu : Fits s u) : ∃ b, u = .float b s := by
      cases u with
      | bool b =>
        cases hu
        cases hf
      | int x t =>
        have hi := hu.2.1
        cases s <;> first | exact absurd hf (by decide) | exact absurd hi (by decide)
      | float b t => exact ⟨b, hu.1 ▸ rfl⟩
    obtain ⟨b, rfl⟩ := hfloat hv
    obtain ⟨b', rfl⟩ := hfloat hw
    rw [UInt64.toNat_inj.1 h]
  · rw [← ofBits_toBits_of_not_isFloat hv hf, h, ofBits_toBits_of_not_isFloat hw hf]

/-- a bit pattern as wide as an integer type is that of an integer of the type -/
theorem toBits_ofBits_of_lt {n : ℕ} (hs : s.isInteger = true) (hn : n < 2 ^ s.bits) : (ofBits n s).toBits = n := by
  rw [toBits_ofBits n hs, Nat.mod_eq_of_lt hn]

/-- two bit patterns are compared by their low bits -/
theorem ofBits_bitPattern_inj (m n : ℕ) (s : Scalar) :
    ofBits m s.bitPattern = ofBits n s.bitPattern ↔ m % 2 ^ s.bits = n % 2 ^ s.bits := by
  rw [← s.bits_bitPattern]
  constructor
  · intro h
    rw [← toBits_ofBits m s.isInteger_bitPattern, h, toBits_ofBits n s.isInteger_bitPattern]
  · intro h
    rw [← ofBits_mod m, h, ofBits_mod]

end Value

/-- storing what an element already is changes nothing -/
theorem Memory.Has.put_found {m : Memory} {n : Name} {p k : ℕ} {b : Buffer} {v : Value} (h : m.Has n p b)
    (hv : b.cells[k]? = some v) (hf : v.Fits b.elem) : m.put p k v = m := by
  have hput : b.put k v = b := by
    obtain ⟨hk, rfl⟩ := Array.getElem?_eq_some_iff.1 hv
    rw [Buffer.put, hf.convert_eq, Array.setIfInBounds_def, dif_pos hk, Array.set_getElem_self]
  have hbuffers : (m.put p k v).buffers = m.buffers := by
    apply Array.ext_getElem?
    intro q
    rw [put, getElem?_store]
    split_ifs with hq
    · rw [← hq, h.buffer, Option.map_some, Buffer.store_singleton, hput]
    · rfl
  cases m
  exact congrArg (Memory.mk · _) hbuffers

namespace Machine

variable {c : Context} {st : State} {s : Scalar} {idx cmp new : Expr} {n r : Name} {p k : ℕ} {b : Buffer}
  {found y v : Value}

theorem eval_bitCast {e : Expr} {ty : Ty} (he : eval c st e = .ok v) (hb : v.scalar.bytes = ty.elem.bytes) :
    eval c st (.bitCast e ty) = .ok (.ofBits v.toBits ty.elem) := by
  rw [eval, he]
  change castBits v ty.elem e.origin = _
  rw [castBits, if_pos hb]

/-- what a swap meets: an element of an array of its type, the value to compare with and the new one -/
structure SwapMeets (c : Context) (st : State) (s : Scalar) (n : Name) (idx cmp new : Expr) (p k : ℕ)
    (found y v : Value) : Prop where
  array : ∃ b, st.memory.Has n p b ∧ b.elem = s ∧ b.cells[k]? = some found
  fits : found.Fits s
  index : evalInt c st idx = .ok k
  expected : eval c st cmp = .ok y
  new : eval c st new = .ok v

/-- what a swap leaves: the element has the new bits if it had the expected ones and stays otherwise, and the variable has
the bits that were found, as an unsigned number -/
structure SwapLeaves (st : State) (s : Scalar) (r : Name) (p k : ℕ) (found y v : ℕ) (st' : State) : Prop where
  element : ∃ w : Value, w.Fits s ∧ w.toBits = (if found = y then v else found) ∧ st'.memory = st.memory.put p k w
  result : ∃ u : Value, u.Fits s.bitPattern ∧ u.toBits = found ∧ st'.vars = st.vars.set r u
  launched : st'.launched = st.launched

/-- a swap works on the low bits of its values -/
theorem exec_compareSwap_leaves (hs : s.isInteger = true) (h : SwapMeets c st s n idx cmp new p k found y v)
    (launch : LaunchSpec → List Stmt → Exec Unit) (r : Name) (sp : Space) (o : Origin) :
    ∃ st', exec launch c (.compareSwap r sp s n idx cmp new o) st = .ok () st' ∧
      SwapLeaves st s r p k found.toBits (y.toBits % 2 ^ s.bits) (v.toBits % 2 ^ s.bits) st' := by
  obtain ⟨b, hb, hel, hget⟩ := h.array
  obtain ⟨hk, hcell⟩ := Array.getElem?_eq_some_iff.1 hget
  have hread : st.memory.read n k = .ok found := hcell ▸ hb.read_run hk
  have hnumber : number c idx st = .ok (k : Int) st := by
    obtain ⟨i, hi, hik⟩ := except_bind_eq_ok.1 h.index
    exact Except.ok.inj hik ▸ number_run hi
  have hpattern : (Value.ofBits found.toBits s.bitPattern).toBits = found.toBits := Value.toBits_bitPattern h.fits hs
  have hequal : Value.ofBits found.toBits s.bitPattern = .ofBits y.toBits s.bitPattern ↔
      found.toBits = y.toBits % 2 ^ s.bits := by
    rw [Value.ofBits_bitPattern_inj, Nat.mod_eq_of_lt (Value.toBits_lt h.fits hs)]
  -- the expressions leave the state alone; what follows depends on the comparison only
  have hrun {t : State} (htail : (if Value.ofBits found.toBits s.bitPattern = .ofBits y.toBits s.bitPattern then do
        let _ ← onMemory o (Memory.write n k (.ofBits v.toBits s))
        setVar r (.ofBits found.toBits s.bitPattern)
      else setVar r (.ofBits found.toBits s.bitPattern)) st = .ok () t) :
      exec launch c (.compareSwap r sp s n idx cmp new o) st = .ok () t := by
    rw [exec, execCompareSwap]
    refine bind_eq_ok.2 ⟨k, st, hnumber, bind_eq_ok.2 ⟨y, st, value_run h.expected, ?_⟩⟩
    refine bind_eq_ok.2 ⟨v, st, value_run h.new, ?_⟩
    exact bind_eq_ok.2 ⟨found, st, observe_eq_ok.2 ⟨by rw [hread]; rfl, rfl⟩, htail⟩
  by_cases heq : found.toBits = y.toBits % 2 ^ s.bits
  · refine ⟨State.set { st with memory := st.memory.put p k (.ofBits v.toBits s) } r _, hrun ?_,
      ⟨_, Value.fits_ofBits v.toBits s, ?_, rfl⟩, ⟨_, Value.fits_ofBits _ _, hpattern, rfl⟩, rfl⟩
    · rw [if_pos (hequal.2 heq)]
      exact bind_eq_ok.2 ⟨_, _, onMemory_run (hb.write_run hk), setVar_run _ _⟩
    · rw [if_pos heq, Value.toBits_ofBits _ hs]
  · refine ⟨st.set r _, hrun ?_, ⟨found, h.fits, ?_, ?_⟩, ⟨_, Value.fits_ofBits _ _, hpattern, rfl⟩, rfl⟩
    · rw [if_neg (mt hequal.1 heq)]
      exact setVar_run _ _
    · rw [if_neg heq]
    · exact (hb.put_found hget (hel ▸ h.fits)).symm

/-- A swap of two values taken bit by bit, as an update writes it, is a swap of the values: the element is compared with the
one and becomes the other. -/
theorem compareSwap_sameBits {e e' : Expr} {x x' : Value} (hs : s.isInteger = true)
    (h : SwapMeets c st s n idx (e'.sameBits s.bitPattern) (e.sameBits s.bitPattern) p k found y v)
    (he' : eval c st e' = .ok x') (hx' : x'.Fits s) (he : eval c st e = .ok x) (hx : x.Fits s)
    (launch : LaunchSpec → List Stmt → Exec Unit) (r : Name) (sp : Space) (o : Origin) :
    ∃ st', exec launch c (.compareSwap r sp s n idx (e'.sameBits s.bitPattern) (e.sameBits s.bitPattern) o) st =
        .ok () st' ∧ st'.memory = st.memory.put p k (if found = x' then x else found) := by
  have hbits {e : Expr} {x z : Value} (he : eval c st e = .ok x) (hx : x.Fits s)
      (hz : eval c st (e.sameBits s.bitPattern) = .ok z) : z.toBits % 2 ^ s.bits = x.toBits := by
    have hbytes : x.scalar.bytes = s.bitPattern.bytes := by
      rw [hx.scalar_eq, s.bytes_bitPattern]
    have hcast : eval c st (e.sameBits s.bitPattern) = .ok (.ofBits x.toBits s.bitPattern) := eval_bitCast he hbytes
    obtain rfl : Value.ofBits x.toBits s.bitPattern = z := Except.ok.inj (hcast.symm.trans hz)
    rw [Value.toBits_bitPattern hx hs, Nat.mod_eq_of_lt (Value.toBits_lt hx hs)]
  obtain ⟨st', hrun, hleft⟩ := exec_compareSwap_leaves hs h launch r sp o
  obtain ⟨w, hw, hwbits, hmemory⟩ := hleft.element
  rw [hbits he' hx' h.expected, hbits he hx h.new] at hwbits
  have hfound : found.toBits = x'.toBits ↔ found = x' := (Value.toBits_injOn s).eq_iff h.fits hx'
  have hstored : w = if found = x' then x else found := by
    by_cases heq : found = x'
    · rw [if_pos (hfound.2 heq)] at hwbits
      rw [if_pos heq]
      exact Value.toBits_injOn s hw hx hwbits
    · rw [if_neg (mt hfound.1 heq)] at hwbits
      rw [if_neg heq]
      exact Value.toBits_injOn s hw h.fits hwbits
  exact ⟨st', hrun, hstored ▸ hmemory⟩

/-- Bits and values determine each other. A truth value or an integer comes back from its bits, the bits of an integer
given by its bits are the low ones, and no two values of a type have the same bits. So a value taken bit by bit has the bits
it was taken from, a swap stores the new bits if it found the expected ones, and the swap of an update stores the value
itself. -/
theorem bit_patterns (s : Scalar) :
    (∀ v : Value, v.Fits s → s.isFloat = false → .ofBits v.toBits s = v) ∧
    Set.InjOn Value.toBits {v | v.Fits s} ∧
    (s.isInteger = true →
      (∀ m : ℕ, (Value.ofBits m s).Fits s ∧ (Value.ofBits m s).toBits = m % 2 ^ s.bits) ∧
      (∀ c st e ty (v : Value), ty.elem = s → eval c st e = .ok v → v.scalar.bytes = s.bytes →
        v.toBits < 2 ^ v.scalar.bits →
        ∃ w : Value, eval c st (.bitCast e ty) = .ok w ∧ w.Fits s ∧ w.toBits = v.toBits) ∧
      (∀ c st n idx cmp new p k found y v, SwapMeets c st s n idx cmp new p k found y v → ∀ launch r sp o,
        ∃ st', exec launch c (.compareSwap r sp s n idx cmp new o) st = .ok () st' ∧
          SwapLeaves st s r p k found.toBits (y.toBits % 2 ^ s.bits) (v.toBits % 2 ^ s.bits) st') ∧
      ∀ c st n idx e' e p k found y v (x' x : Value),
        SwapMeets c st s n idx (e'.sameBits s.bitPattern) (e.sameBits s.bitPattern) p k found y v →
        eval c st e' = .ok x' → x'.Fits s → eval c st e = .ok x → x.Fits s → ∀ launch r sp o,
        ∃ st', exec launch c (.compareSwap r sp s n idx (e'.sameBits s.bitPattern) (e.sameBits s.bitPattern) o) st =
            .ok () st' ∧ st'.memory = st.memory.put p k (if found = x' then x else found)) := by
  refine ⟨fun v hv hf => Value.ofBits_toBits_of_not_isFloat hv hf, Value.toBits_injOn s,
    fun hs => ⟨fun m => ?_, ?_, ?_, ?_⟩⟩
  · exact ⟨Value.fits_ofBits m s, Value.toBits_ofBits m hs⟩
  · rintro c st e ty v rfl he hbytes hlt
    have hwidth : v.scalar.bits = ty.elem.bits := by
      simp only [Scalar.bits, hbytes]
    refine ⟨_, eval_bitCast he hbytes, Value.fits_ofBits _ _, ?_⟩
    exact Value.toBits_ofBits_of_lt hs (hwidth ▸ hlt)
  · intro c st n idx cmp new p k found y v h launch r sp o
    exact exec_compareSwap_leaves hs h launch r sp o
  · intro c st n idx e' e p k found y v x' x h he' hx' he hx launch r sp o
    exact compareSwap_sameBits hs h he' hx' he hx launch r sp o

/-- a host with one array of a signed byte, which is -1 -/
def signedByte : State where
  memory := Memory.insert {} (.plain "x") ⟨.i8, #[.int (-1) .i8]⟩

/-- the byte -1 has the bits 255, and a swap of 128 for 255 leaves the byte with the bits 128 -/
theorem bit_patterns_signed :
    Value.ofBits (Value.int (-1) .i8).toBits .i8 = .int (-1) .i8 ∧ (Value.ofBits 255 .i8).toBits = 255 % 2 ^ 8 ∧
    let c : Context := { limits := {}, sizes := fun _ => none, loopLimit := 10 }
    let swap : Stmt :=
      .compareSwap (.plain "old") .device .i8 (.plain "x") (.literal 0 .i64) (.literal 255 .u8) (.literal 128 .u8) .unknown
    ∃ st', exec (fun _ _ => pure ()) c swap signedByte = .ok () st' ∧
      SwapLeaves signedByte .i8 (.plain "old") 0 0 255 255 128 st' := by
  obtain ⟨hvalues, -, hinteger⟩ := bit_patterns .i8
  obtain ⟨hpatterns, -, hswap, -⟩ := hinteger rfl
  refine ⟨hvalues _ (by decide) rfl, (hpatterns 255).2, ?_⟩
  exact hswap _ signedByte (.plain "x") _ _ _ 0 0 (.int (-1) .i8) (.int 255 .u8) (.int 128 .u8)
    ⟨⟨_, ⟨rfl, rfl⟩, rfl, rfl⟩, by decide, rfl, rfl, rfl⟩ _ _ _ _

end Machine

end GpuHistogram
