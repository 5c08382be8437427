/-
LinuxBasedOs/Printf.lean

The kernel's `printf` (lib.c) against the format it reads.

`printf` walks over the format with one pointer that it advances in three places: behind a
`%`, behind each `#` (with a `goto` back to the conversion switch), and once more at the
end of every round.  Every step looks at one byte and moves on by one, so the walk is a
machine with two states, text and conversion (`printfFrom`); the bytes it looks at are
recorded.

The reference is by directives: `parse` cuts the format into text and conversions, and
`Directive.render` says what each of them shows for its argument.  A conversion that is cut
off by the end of the format takes `printf` over the terminating NUL, since the byte that
ends a conversion is skipped whatever it is.  Main result: `printf` returns, has read no
byte behind the NUL, and has shown the reference exactly if the format does not end inside
a conversion (`printf_renders_iff`).
-/
import LinuxBasedOs.Itoa

namespace LinuxBasedOs

open Bytes

/-! ### The routine -/

/-- What a routine left at `&buf[a]`, together with the bytes before it. -/
def overlay (buf : Mem) (a : Nat) (m : Mem) : Mem := fun i => if i < a then buf i else m (i - a)

/-- `while (i < 8) { conv_buf[i] = '0'; i++; }`, with `left = 8 - i`. -/
def zeroFill : (left i : Nat) → Mem → Mem
  | 0, _, m => m
  | left + 1, i, m => zeroFill left (i + 1) (Function.update m i 48)

/-- `%x` with the modifier: the digits go to `&conv_buf[8]`, and zeros to the places before
them, as many as the digits leave free of eight. -/
def putHexAligned (convBuf : Mem) (arg : UInt32) : Option (List UInt8) :=
  (itoa arg.toNat (behind convBuf 8) 16).bind fun m =>
    (strlen m).bind fun start =>
      puts (behind (zeroFill (8 - start) start (overlay convBuf 8 m)) start)

/-- `%d`: a negative number is negated as an `int32_t`, which leaves the smallest one as it
is, and printed unsigned behind a minus. -/
def putSigned (convBuf : Mem) (arg : UInt32) : Option (List UInt8) :=
  if 2 ^ 31 ≤ arg.toNat then
    (itoa (-arg).toNat (behind convBuf 1) 10).bind fun m =>
      puts (overlay (Function.update convBuf 0 45) 1 m)
  else (itoa arg.toNat convBuf 10).bind puts

/-- The conversion switch: what is put out, and by how many arguments `esp` moves on. -/
def conversion (mem convBuf : Mem) (alternate : Bool) (c : UInt8) (arg : UInt32) :
    Option (List UInt8 × Nat) :=
  if c = 37 then some ([37], 0)                                               -- '%'
  else if c = 120 then                                                        -- 'x'
    (if alternate then putHexAligned convBuf arg
      else (itoa arg.toNat convBuf 16).bind puts).map fun out => (out, 1)
  else if c = 117 then                                                        -- 'u'
    ((itoa arg.toNat convBuf 10).bind puts).map fun out => (out, 1)
  else if c = 100 then (putSigned convBuf arg).map fun out => (out, 1)        -- 'd'
  else if c = 99 then some ([arg.toUInt8], 1)                                 -- 'c'
  else if c = 115 then (puts (behind mem arg.toNat)).map fun out => (out, 1)  -- 's'
  else some ([], 0)

/-- What a call has done: the characters given to `putc`, the bytes of the format looked
at, the arguments used, and the value returned. -/
structure Printed where
  output : List UInt8
  reads : List Nat
  args : Nat
  ret : Nat

/-- A place of the format string is read. -/
def Printed.saw (i : Nat) (p : Printed) : Printed := { p with reads := i :: p.reads }

/-- Characters are put out. -/
def Printed.put (out : List UInt8) (p : Printed) : Printed := { p with output := out ++ p.output }

/-- The loop with `buf - format = i` and `esp` at argument `a`: at its head for `none`, and
at the label `format_char_switch` for `some alternate`.  Every conversion has a buffer of
its own, with whatever the stack holds there (`stack i`). -/
def printfFrom (format mem : Mem) (stack : Nat → Mem) (args : Nat → UInt32) :
    (left : Nat) → (conv : Option Bool) → (i a : Nat) → Option Printed
  | 0, _, _, _ => none
  | left + 1, none, i, a =>
      Option.map (Printed.saw i) <|
        if format i = 0 then some ⟨[], [], a, i⟩
        else if format i = 37 then printfFrom format mem stack args left (some false) (i + 1) a
        else (printfFrom format mem stack args left none (i + 1) a).map (Printed.put [format i])
  | left + 1, some alternate, i, a =>
      Option.map (Printed.saw i) <|
        if format i = 35 then printfFrom format mem stack args left (some true) (i + 1) a
        else
          (conversion mem (stack i) alternate (format i) (args a)).bind fun r =>
            (printfFrom format mem stack args left none (i + 1) (a + r.2)).map (Printed.put r.1)

/-- `printf`, for the words `args` behind `format` on the stack. -/
def printf (format mem : Mem) (stack : Nat → Mem) (args : Nat → UInt32) : Option Printed :=
  printfFrom format mem stack args (2 ^ 32) none 0 0

/-! ### The reference -/

/-- What `printf` finds in the format string. -/
inductive Directive where
  | text (c : UInt8)
  | percent
  | hex
  | hexAligned
  | unsigned
  | signed
  | char
  | string
  | unknown
  deriving DecidableEq

/-- The conversion that a character stands for; only `x` can be altered by a `#`. -/
def Directive.ofConversion (alternate : Bool) (c : UInt8) : Directive :=
  if c = 37 then .percent
  else if c = 120 then (if alternate then .hexAligned else .hex)
  else if c = 117 then .unsigned
  else if c = 100 then .signed
  else if c = 99 then .char
  else if c = 115 then .string
  else .unknown

/-- The format as directives; a conversion that the end cuts off is none. -/
def parse : Option Bool → List UInt8 → List Directive
  | _, [] => []
  | none, c :: cs => if c = 37 then parse (some false) cs else .text c :: parse none cs
  | some alternate, c :: cs =>
      if c = 35 then parse (some true) cs else .ofConversion alternate c :: parse none cs

/-- The format does not end inside a conversion. -/
def Complete : Option Bool → List UInt8 → Prop
  | none, [] => True
  | some _, [] => False
  | none, c :: cs => if c = 37 then Complete (some false) cs else Complete none cs
  | some _, c :: cs => if c = 35 then Complete (some true) cs else Complete none cs

/-- How many arguments a directive takes. -/
def Directive.takes : Directive → Nat
  | .text _ | .percent | .unknown => 0
  | .hex | .hexAligned | .unsigned | .signed | .char | .string => 1

/-- The decimal numeral of an integer. -/
def signedNumeral (z : Int) : List UInt8 :=
  if z < 0 then 45 :: numeral 10 z.natAbs else numeral 10 z.natAbs

/-- What a directive shows. -/
def Directive.render (mem : Mem) (arg : UInt32) : Directive → List UInt8
  | .text c => [c]
  | .percent => [37]
  | .hex => numeral 16 arg.toNat
  | .hexAligned => (alignedValues 16 8 arg.toNat).map lookup
  | .unsigned => numeral 10 arg.toNat
  | .signed => signedNumeral arg.toInt32.toInt
  | .char => [arg.toUInt8]
  | .string => (puts (behind mem arg.toNat)).getD []
  | .unknown => []

/-- How many arguments a format takes. -/
def takes (ds : List Directive) : Nat := (ds.map Directive.takes).sum

/-- The directives one after the other, from argument `a` on. -/
def render (mem : Mem) (args : Nat → UInt32) : List Directive → (a : Nat) → List UInt8
  | [], _ => []
  | d :: ds, a => d.render mem (args a) ++ render mem args ds (a + d.takes)

/-- The arguments taken by `%s`. -/
def stringArgs : List Directive → (a : Nat) → List Nat
  | [], _ => []
  | d :: ds, a => (if d = .string then [a] else []) ++ stringArgs ds (a + d.takes)

/-! ### The conversions -/

theorem zeroFill_eq (left i : Nat) (m : Mem) :
    zeroFill left i m = cover m i left fun _ => 48 := by
  induction left generalizing i m with
  | zero => exact (cover_zero m i _).symm
  | succ left ih =>
      rw [zeroFill, ih]
      exact cover_cons m i left fun _ => 48

/-- `itoa` into any buffer and `puts` of it show the numeral. -/
theorem itoa_puts {radix : Nat} (hr : 2 ≤ radix) (hr' : radix ≤ 36) (arg : UInt32) (convBuf : Mem) :
    (itoa arg.toNat convBuf radix).bind puts = some (numeral radix arg.toNat) := by
  obtain ⟨m, hm, hstring⟩ := itoa_eq_numeral arg.toNat_lt hr hr' convBuf
  have hpow : arg.toNat < radix ^ 32 := lt_of_lt_of_le arg.toNat_lt (Nat.pow_le_pow_left hr 32)
  have hlen := length_numeral_le hr (by decide) hpow
  rw [hm, Option.bind_some]
  exact hstring.puts (by omega)

theorem putSigned_eq (convBuf : Mem) (arg : UInt32) :
    putSigned convBuf arg = some (signedNumeral arg.toInt32.toInt) := by
  have harg := arg.toNat_lt
  have hvalue : arg.toInt32.toInt =
      if 2 * arg.toNat < 2 ^ 32 then (arg.toNat : Int) else arg.toNat - 2 ^ 32 :=
    BitVec.toInt_eq_toNat_cond arg.toBitVec
  by_cases hneg : 2 ^ 31 ≤ arg.toNat
  · -- the negation of a negative number, the smallest one included
    have hminus : (-arg).toNat = 2 ^ 32 - arg.toNat := by
      rw [UInt32.toNat_neg]
      exact Nat.mod_eq_of_lt (Nat.sub_lt (by decide) (by omega))
    have hz : arg.toInt32.toInt = -((-arg).toNat : Int) := by
      rw [hvalue, if_neg (by omega)]
      omega
    obtain ⟨m, hm, hstring⟩ := itoa_eq_numeral (-arg).toNat_lt (show 2 ≤ 10 by decide) (by decide)
      (behind convBuf 1)
    have hpow : (-arg).toNat < 10 ^ 32 := lt_trans (-arg).toNat_lt (by decide)
    have hlen := length_numeral_le (by decide) (by decide) hpow
    rw [putSigned, if_pos hneg, hm, Option.bind_some, signedNumeral, hz, if_pos (by omega),
      Int.natAbs_neg, Int.natAbs_natCast]
    refine IsString.puts ⟨fun i hi => ?_, ?_, ?_⟩ (by rw [List.length_cons]; omega)
    · cases i with
      | zero => rfl
      | succ i => exact hstring.bytes i (Nat.lt_of_succ_lt_succ hi)
    · exact hstring.nul
    · exact List.forall_mem_cons.mpr ⟨by decide, hstring.ne_zero⟩
  · have hz : arg.toInt32.toInt = (arg.toNat : Int) := by rw [hvalue, if_pos (by omega)]
    rw [putSigned, if_neg hneg, signedNumeral, hz, if_neg (by omega), Int.natAbs_natCast]
    exact itoa_puts (by decide) (by decide) arg convBuf

theorem putHexAligned_eq (convBuf : Mem) (arg : UInt32) :
    putHexAligned convBuf arg = some ((alignedValues 16 8 arg.toNat).map lookup) := by
  have hv : arg.toNat < 16 ^ 8 := arg.toNat_lt
  obtain ⟨m, hm, hstring⟩ := itoa_eq_numeral arg.toNat_lt (show 2 ≤ 16 by decide) (by decide)
    (behind convBuf 8)
  have hlen := length_numeral_le (by decide) (by decide) hv
  have haligned : (alignedValues 16 8 arg.toNat).map lookup =
      List.replicate (8 - (numeral 16 arg.toNat).length) 48 ++ numeral 16 arg.toNat := by
    rw [← placeValues_aligned (by decide) (by decide) hv, List.map_append, List.map_replicate,
      numeral, List.length_map]
    rfl
  rw [putHexAligned, hm, Option.bind_some, hstring.strlen (by omega), Option.bind_some, haligned]
  generalize numeral 16 arg.toNat = digits at hstring hlen
  -- the digits start at `conv_buf[8]`; the string that is put out starts before them, with zeros
  have hat : ∀ i,
      behind (zeroFill (8 - digits.length) digits.length (overlay convBuf 8 m)) digits.length i =
        if i < 8 - digits.length then 48 else m (i - (8 - digits.length)) := by
    intro i
    simp only [behind, zeroFill_eq, cover, overlay]
    split_ifs with h₁ h₂ h₂ h₃ h₃
    · rfl
    · omega
    · omega
    · omega
    · omega
    · congr 1
      omega
  refine IsString.puts ⟨fun i hi => ?_, ?_, ?_⟩ ?_
  · rw [hat, List.getElem_append]
    simp only [List.length_append, List.length_replicate] at hi ⊢
    split_ifs with h
    · rw [List.getElem_replicate]
    · exact hstring.bytes _ (by omega)
  · rw [hat, List.length_append, List.length_replicate, if_neg (by omega), Nat.add_sub_cancel_left]
    exact hstring.nul
  · refine List.forall_mem_append.mpr ⟨fun b hb => ?_, hstring.ne_zero⟩
    rw [List.eq_of_mem_replicate hb]
    decide
  · rw [List.length_append, List.length_replicate]
    omega

/-- The argument of a `%s` is the address of a string. -/
def PointsToString (mem : Mem) (arg : UInt32) : Prop := ∃ n, strlen (behind mem arg.toNat) = some n

/-- **One conversion** shows its directive and takes its argument. -/
theorem conversion_eq (mem convBuf : Mem) (alternate : Bool) (c : UInt8) (arg : UInt32)
    (hstr : Directive.ofConversion alternate c = .string → PointsToString mem arg) :
    conversion mem convBuf alternate c arg =
      some ((Directive.ofConversion alternate c).render mem arg,
        (Directive.ofConversion alternate c).takes) := by
  unfold conversion
  unfold Directive.ofConversion at hstr ⊢
  split_ifs at hstr ⊢ with h₁ h₂ h₃ h₄ h₅ h₆ h₇
  · rfl
  · rw [putHexAligned_eq]
    rfl
  · rw [itoa_puts (by decide) (by decide)]
    rfl
  · rw [itoa_puts (by decide) (by decide)]
    rfl
  · rw [putSigned_eq]
    rfl
  · rfl
  · obtain ⟨n, hn⟩ := hstr rfl
    simp only [Directive.render, Directive.takes, puts, hn, Option.map_some, Option.getD_some]
  · rfl

/-- A `%s` that is done was given a string. -/
theorem pointsToString_of_conversion {mem convBuf : Mem} {alternate : Bool} {c : UInt8}
    {arg : UInt32} {r : List UInt8 × Nat} (h : conversion mem convBuf alternate c arg = some r)
    (hd : Directive.ofConversion alternate c = .string) : PointsToString mem arg := by
  have hc : c = 115 := by
    unfold Directive.ofConversion at hd
    split_ifs at hd with h₁ h₂ h₃ h₄ h₅ h₆ h₇
    exact h₇
  subst hc
  obtain ⟨out, hout, -⟩ := Option.map_eq_some_iff.mp (show (puts _).map _ = some r from h)
  obtain ⟨n, hn, -⟩ := Option.map_eq_some_iff.mp hout
  exact ⟨n, hn⟩

/-! ### The walk over the format -/

section Walk

variable {format mem : Mem} {stack : Nat → Mem} {args : Nat → UInt32}

theorem range'_cons (i n : Nat) : i :: List.range' (i + 1) n = List.range' i (n + 1) := rfl

/-- A format that does not end inside a conversion is walked over up to its NUL. -/
theorem printfFrom_complete {conv : Option Bool} {cs : List UInt8} {left i a : Nat}
    (hformat : IsString (behind format i) cs) (hleft : cs.length < left)
    (hcomplete : Complete conv cs)
    (hstrings : ∀ k ∈ stringArgs (parse conv cs) a, PointsToString mem (args k)) :
    printfFrom format mem stack args left conv i a =
      some ⟨render mem args (parse conv cs) a, List.range' i (cs.length + 1),
        a + takes (parse conv cs), i + cs.length⟩ := by
  induction cs generalizing conv left i a with
  | nil =>
      obtain ⟨left, rfl⟩ : ∃ l, left = l + 1 := ⟨left - 1, by omega⟩
      cases conv with
      | some alternate => exact hcomplete.elim
      | none =>  -- the NUL ends the loop
          have hz : format i = 0 := hformat.nul
          rw [printfFrom, if_pos hz]
          rfl
  | cons c cs ih =>
      obtain ⟨left, rfl⟩ : ∃ l, left = l + 1 := ⟨left - 1, by omega⟩
      obtain ⟨hc, hnz, hrest⟩ := hformat.behind_cons
      rw [List.length_cons] at hleft
      have hleft' : cs.length < left := by omega
      cases conv with
      | none =>
          rw [printfFrom, hc, if_neg hnz]
          by_cases hpercent : c = 37
          · rw [Complete, if_pos hpercent] at hcomplete
            rw [parse, if_pos hpercent] at hstrings ⊢
            rw [if_pos hpercent, ih hrest hleft' hcomplete hstrings]
            simp only [Option.map_some, Printed.saw, range'_cons, List.length_cons, Nat.add_assoc,
              Nat.add_comm 1]
          · rw [Complete, if_neg hpercent] at hcomplete
            rw [parse, if_neg hpercent] at hstrings ⊢
            have htail : ∀ k ∈ stringArgs (parse none cs) a, PointsToString mem (args k) := hstrings
            rw [if_neg hpercent, ih hrest hleft' hcomplete htail]
            simp only [Option.map_some, Printed.saw, Printed.put, range'_cons, render, takes,
              Directive.render, Directive.takes, List.map_cons, List.sum_cons, List.length_cons,
              Nat.zero_add, Nat.add_zero, Nat.add_assoc, Nat.add_comm 1]
      | some alternate =>
          rw [printfFrom, hc]
          by_cases hsharp : c = 35
          · rw [Complete, if_pos hsharp] at hcomplete
            rw [parse, if_pos hsharp] at hstrings ⊢
            rw [if_pos hsharp, ih hrest hleft' hcomplete hstrings]
            simp only [Option.map_some, Printed.saw, range'_cons, List.length_cons, Nat.add_assoc,
              Nat.add_comm 1]
          · rw [Complete, if_neg hsharp] at hcomplete
            rw [parse, if_neg hsharp] at hstrings ⊢
            rw [if_neg hsharp]
            -- the byte ends the conversion; its argument is the next one
            generalize hd : Directive.ofConversion alternate c = d at hstrings ⊢
            have hhere : d = .string → PointsToString mem (args a) := by
              intro hstring
              refine hstrings a ?_
              rw [stringArgs, if_pos hstring]
              exact List.mem_append_left _ (List.mem_singleton_self a)
            rw [conversion_eq mem (stack i) alternate c (args a) (hd ▸ hhere), hd, Option.bind_some,
              ih hrest hleft' hcomplete fun k hk => hstrings k (List.mem_append_right _ hk)]
            simp only [Option.map_some, Printed.saw, Printed.put, range'_cons, render, takes,
              List.map_cons, List.sum_cons, List.length_cons, Nat.add_assoc, Nat.add_comm 1]

/-- A call that returns has looked at the byte it started at. -/
theorem mem_reads_of_printfFrom {conv : Option Bool} {left i a : Nat} {p : Printed}
    (h : printfFrom format mem stack args left conv i a = some p) : i ∈ p.reads := by
  cases left with
  | zero => cases h
  | succ left =>
      cases conv with
      | none =>
          obtain ⟨q, -, rfl⟩ := Option.map_eq_some_iff.mp h
          exact List.mem_cons_self
      | some alternate =>
          obtain ⟨q, -, rfl⟩ := Option.map_eq_some_iff.mp h
          exact List.mem_cons_self

/-- Inversion of one step over a byte of the format that is not its NUL: the rest of the
walk, and the directive that was done if one was. -/
theorem printfFrom_cons {conv : Option Bool} {c : UInt8} {cs : List UInt8} {left i a : Nat}
    {p : Printed} (hformat : IsString (behind format i) (c :: cs))
    (h : printfFrom format mem stack args left conv i a = some p) :
    ∃ conv' a' left' q, printfFrom format mem stack args left' conv' (i + 1) a' = some q ∧
      (∀ j ∈ q.reads, j ∈ p.reads) ∧ (Complete conv (c :: cs) ↔ Complete conv' cs) ∧
      ((∀ k ∈ stringArgs (parse conv' cs) a', PointsToString mem (args k)) →
        ∀ k ∈ stringArgs (parse conv (c :: cs)) a, PointsToString mem (args k)) := by
  obtain ⟨hc, hnz, -⟩ := hformat.behind_cons
  cases left with
  | zero => cases h
  | succ left =>
      -- outside of a conversion, or inside of one
      cases conv with
      | none =>
          rw [printfFrom, hc, if_neg hnz] at h
          obtain ⟨q, hq, rfl⟩ := Option.map_eq_some_iff.mp h
          rw [Complete, parse]
          split_ifs at hq ⊢ with hpercent
          · exact ⟨some false, a, left, q, hq, fun j hj => List.mem_cons_of_mem i hj, Iff.rfl, id⟩
          · obtain ⟨t, ht, rfl⟩ := Option.map_eq_some_iff.mp hq
            exact ⟨none, a, left, t, ht, fun j hj => List.mem_cons_of_mem i hj, Iff.rfl, id⟩
      | some alternate =>
          rw [printfFrom, hc] at h
          obtain ⟨q, hq, rfl⟩ := Option.map_eq_some_iff.mp h
          rw [Complete, parse]
          -- `#` stays in the conversion, any other character ends it
          split_ifs at hq ⊢ with hsharp
          · exact ⟨some true, a, left, q, hq, fun j hj => List.mem_cons_of_mem i hj, Iff.rfl, id⟩
          · obtain ⟨r, hr, hq⟩ := Option.bind_eq_some_iff.mp hq
            obtain ⟨t, ht, rfl⟩ := Option.map_eq_some_iff.mp hq
            have hhere := pointsToString_of_conversion hr
            rw [conversion_eq mem (stack i) alternate c (args a) hhere] at hr
            obtain rfl := Option.some.inj hr
            refine ⟨none, _, left, t, ht, fun j hj => List.mem_cons_of_mem i hj, Iff.rfl, ?_⟩
            intro hrest k hk
            rcases List.mem_append.mp hk with hk | hk
            · split_ifs at hk with hd
              · rw [List.mem_singleton.mp hk]
                exact hhere hd
              · cases hk
            · exact hrest k hk

/-- A call that returns was given strings for its `%s`. -/
theorem pointsToString_of_printfFrom {conv : Option Bool} {cs : List UInt8} {left i a : Nat}
    {p : Printed} (hformat : IsString (behind format i) cs)
    (h : printfFrom format mem stack args left conv i a = some p) :
    ∀ k ∈ stringArgs (parse conv cs) a, PointsToString mem (args k) := by
  induction cs generalizing conv left i a p with
  | nil =>
      intro k hk
      cases conv <;> cases hk
  | cons c cs ih =>
      obtain ⟨conv', a', left', q, hq, -, -, hstrings⟩ := printfFrom_cons hformat h
      exact hstrings (ih hformat.behind_cons.2.2 hq)

/-- A format that ends inside a conversion has the byte behind its NUL read: the NUL is
taken for the conversion's character and skipped. -/
theorem printfFrom_incomplete {conv : Option Bool} {cs : List UInt8} {left i a : Nat}
    {p : Printed} (hformat : IsString (behind format i) cs) (hcut : ¬ Complete conv cs)
    (h : printfFrom format mem stack args left conv i a = some p) :
    i + cs.length + 1 ∈ p.reads := by
  induction cs generalizing conv left i a p with
  | nil =>
      cases conv with
      | none => exact absurd trivial hcut
      | some alternate =>
          -- the NUL is not looked at as the end while a conversion is open
          have hz : format i = 0 := hformat.nul
          cases left with
          | zero => cases h
          | succ left =>
              rw [printfFrom, hz, if_neg (by decide)] at h
              obtain ⟨q, hq, rfl⟩ := Option.map_eq_some_iff.mp h
              obtain ⟨r, -, hq⟩ := Option.bind_eq_some_iff.mp hq
              obtain ⟨t, ht, rfl⟩ := Option.map_eq_some_iff.mp hq
              have hread : i + 1 ∈ t.reads := mem_reads_of_printfFrom ht
              exact List.mem_cons_of_mem i hread
  | cons c cs ih =>
      obtain ⟨conv', a', left', q, hq, hreads, hcomplete, -⟩ := printfFrom_cons hformat h
      have hread := ih hformat.behind_cons.2.2 (hcomplete.not.mp hcut) hq
      rw [List.length_cons, show i + (cs.length + 1) + 1 = i + 1 + cs.length + 1 by omega]
      exact hreads _ hread

end Walk

/-! ### The call -/

/-- The call returns without having looked behind the NUL at `n`, has used one argument for
each conversion that takes one, and has shown the reference. -/
def Renders (format mem : Mem) (stack : Nat → Mem) (args : Nat → UInt32) (n : Nat) : Prop :=
  ∃ p, printf format mem stack args = some p ∧ (∀ i ∈ p.reads, i ≤ n) ∧
    p.args = takes (parse none ((List.range n).map format)) ∧
    p.output = render mem args (parse none ((List.range n).map format)) 0

/-- **`printf` renders its format exactly if** the format does not end inside a conversion
(and every `%s` is given a string), whatever the buffers on the stack hold. -/
theorem printf_renders_iff (format mem : Mem) (stack : Nat → Mem) (args : Nat → UInt32) (n : Nat)
    (hn : strlen format = some n) :
    Renders format mem stack args n ↔
      Complete none ((List.range n).map format) ∧
        ∀ k ∈ stringArgs (parse none ((List.range n).map format)) 0, PointsToString mem (args k) := by
  have hlt := strlenFrom_lt hn
  have hformat : IsString (behind format 0) ((List.range n).map format) := by
    have h := isString_of_strlen hn
    rwa [show behind format 0 = format from funext fun i => congrArg format (Nat.zero_add i)]
  have hlen : ((List.range n).map format).length = n := by simp
  rw [Renders]
  generalize (List.range n).map format = cs at hformat hlen ⊢
  subst hlen
  constructor
  · -- reading no further than the NUL is part of rendering
    rintro ⟨p, hp, hreads, -, -⟩
    refine ⟨?_, pointsToString_of_printfFrom hformat hp⟩
    by_contra hcut
    have hle := hreads _ (printfFrom_incomplete hformat hcut hp)
    omega
  · rintro ⟨hcomplete, hstrings⟩
    refine ⟨_, printfFrom_complete hformat (by omega) hcomplete hstrings, fun i hi => ?_, ?_, ?_⟩
    · have hrange := List.mem_range'_1.mp hi
      omega
    · exact Nat.zero_add _
    · rfl

/-- `printf("n=%d", …)` for the smallest number. -/
theorem printf_renders_smallest :
    let format : Mem := fun i => [110, 61, 37, 100].getD i 0
    strlen format = some 4 ∧
      Renders format (fun _ => 0) (fun _ _ => 7) (fun _ => 0x80000000) 4 := by
  have hn : strlen (fun i => [110, 61, 37, 100].getD i 0) = some 4 :=
    strlenFrom_eq rfl (by decide) (by decide) (by decide)
  refine ⟨hn, (printf_renders_iff _ _ _ _ 4 hn).mpr ⟨trivial, ?_⟩⟩
  intro k hk
  cases hk

/-- `printf("%")` with an `A` behind the format shows the `A`. -/
theorem printf_reads_on :
    let format : Mem := fun i => [37, 0, 65, 0].getD i 0
    strlen format = some 1 ∧
      (printf format (fun _ => 0) (fun _ _ => 7) (fun _ => 5)).map
        (fun p => (p.output, p.reads)) = some ([65], [0, 1, 2, 3]) ∧
      ¬ Renders format (fun _ => 0) (fun _ _ => 7) (fun _ => 5) 1 := by
  have hprintf : (printf (fun i => [37, 0, 65, 0].getD i 0) (fun _ => 0) (fun _ _ => 7)
      (fun _ => 5)).map (fun p => (p.output, p.reads)) = some ([65], [0, 1, 2, 3]) := by
    decide +kernel
  refine ⟨strlenFrom_eq rfl (by decide) (by decide) (by decide), hprintf, ?_⟩
  rintro ⟨p, hp, hreads, -, -⟩
  rw [hp] at hprintf
  have hall := (Prod.mk.inj (Option.some.inj hprintf)).2
  have hle := hreads 2 (by rw [hall]; decide)
  omega

end LinuxBasedOs
