/-
LinuxBasedOs/Grep.lean

The user program `grep`: `do_one_file` against the lines of the file.

The file comes in pieces of at most 1024 bytes.  A round reads behind what the last round
left in the buffer, and then goes over the buffer line by line (`scan`): a line that a
newline ends is searched in place, with its newline made a NUL; the bytes behind the last
newline are copied down to be completed by the next read.

Whether the last line of the buffer is complete is asked of the byte where it ends, and
that byte may lie behind what has been read.  As long as the buffer is not full this does no
harm, since then the file is at its end.  Behind a full buffer stands `data[1024]`, which
nobody has written before: if it happens to be a newline, the first line that a full buffer
cuts is taken for two.  It can happen only once, as the byte is a NUL from then on.

A second defect is in the search: the first character of the pattern is a `char`, the
bytes of the file are `uint8_t`, and so a character from 128 on is not found at all.  Main
result: the lines printed are the lines that contain the pattern exactly if neither of the
two matters (`prints_iff`).
-/
import LinuxBasedOs.Bytes
import LinuxBasedOs.Lines

namespace LinuxBasedOs.Grep

open Bytes Lines

/-! ### The support library -/

/-- `ece391_strncmp` from index `i` on, with `n` bytes to go. -/
def ece391StrncmpFrom (s₁ s₂ : Mem) : (n i : Nat) → Int
  | 0, _ => 0
  | n + 1, i =>
      if s₁ i = s₂ i then if s₁ i = 0 ∨ n = 0 then 0 else ece391StrncmpFrom s₁ s₂ n (i + 1)
      else (s₁ i).toNat - (s₂ i).toNat

/-- `ece391_strncmp`. -/
def ece391Strncmp (s₁ s₂ : Mem) (n : Nat) : Int := ece391StrncmpFrom s₁ s₂ n 0

/-- `ece391_strcpy` inside one object, for at most `left` bytes. -/
def ece391StrcpyFrom : (left dst src : Nat) → Mem → Option Mem
  | 0, _, _, _ => none
  | left + 1, dst, src, m =>
      let m' := Function.update m dst (m src)
      if m src = 0 then some m' else ece391StrcpyFrom left (dst + 1) (src + 1) m'

/-- `ece391_strcpy`, inside of one memory; `none` if the source has no NUL. -/
def ece391Strcpy (m : Mem) (dst src : Nat) : Option Mem := ece391StrcpyFrom (2 ^ 32) dst src m

/-- The bytes of a string literal. -/
def text (t : String) : List UInt8 := t.toList.map Char.toUInt8

/-! ### do_one_file -/

/-- `BUFSIZE`; the buffer has one byte more. -/
def bufSize : Nat := 1024

/-- `while (line_end < last && '\n' != data[line_end]) line_end++;`, with
`left = last - line_end`. -/
def lineEndFrom (data : Mem) : (left lineEnd : Nat) → Nat
  | 0, lineEnd => lineEnd
  | left + 1, lineEnd => if data lineEnd ≠ 10 then lineEndFrom data left (lineEnd + 1) else lineEnd

/-- The search of a line, with `left = line_end - check`; `s` is a `const char*`. -/
def searchFrom (s data : Mem) (sLen : Nat) : (left check : Nat) → Bool
  | 0, _ => false
  | left + 1, check =>
      if int8 (s 0) = (data check).toNat ∧ ece391Strncmp (behind data check) s sLen = 0 then true
      else searchFrom s data sLen left (check + 1)

/-- The search, and the four `ece391_fdputs` for a line that is found. -/
def searchLine (s fname : Mem) (sLen : Nat) (data : Mem) (lineStart lineEnd : Nat) :
    Option (List UInt8) :=
  if searchFrom s data sLen (lineEnd - lineStart) lineStart then
    (puts fname).bind fun name => (puts (behind data lineStart)).map fun line =>
      name ++ text ":" ++ line ++ text "\n"
  else some []

/-- The buffer behind the inner loop, with what has been printed. -/
structure Scanned where
  data : Mem
  last : Nat
  out : List UInt8

/-- The inner loop, for at most `left` lines. -/
def scan (s fname : Mem) (sLen cnt : Nat) :
    (left lineStart : Nat) → (data : Mem) → (last : Nat) → Option Scanned
  | 0, _, _, _ => none
  | left + 1, lineStart, data, last =>
      let lineEnd := lineEndFrom data (last - lineStart) lineStart
      let ended := Function.update data lineEnd 0
      if data lineEnd ≠ 10 ∧ cnt ≠ 0 ∧ lineStart ≠ 0 then
        -- copy from line_start to last down to 0 and fix last
        (ece391Strcpy ended 0 lineStart).map fun moved => ⟨moved, last - lineStart, []⟩
      else
        (searchLine s fname sLen ended lineStart lineEnd).bind fun out =>
          if last ≤ lineEnd + 1 then some ⟨ended, 0, out⟩
          else
            (scan s fname sLen cnt left (lineEnd + 1) ended last).map fun r =>
              { r with out := out ++ r.out }

/-- Which of the system calls go well: `open`, the reads by their number, and `close`. -/
structure Calls where
  opens : Bool
  reads : Nat → Bool
  closes : Bool

/-- The end of the routine: the value returned, and the message of a failed `close`. -/
def closing (calls : Calls) : Int × List UInt8 :=
  if calls.closes then (0, []) else (-1, text "file close failed\n")

/-- The outer loop, with `rest` still to be read from the file: a read that goes well
returns as much as is asked for, or as there is. -/
def rounds (calls : Calls) (s fname : Mem) (sLen : Nat) :
    (left call : Nat) → (rest : List UInt8) → (data : Mem) → (last : Nat) →
      Option (Int × List UInt8)
  | 0, _, _, _, _ => none
  | left + 1, call, rest, data, last =>
      if calls.reads call then
        -- cnt = ece391_read (fd, data + last, BUFSIZE - last)
        let got := rest.take (bufSize - last)
        (scan s fname sLen got.length (bufSize + 1) 0 (storeAll data (storesAt last got))
            (last + got.length)).bind fun r =>
          if got.length = 0 then some ((closing calls).1, r.out ++ (closing calls).2)
          else
            (rounds calls s fname sLen left (call + 1) (rest.drop (bufSize - last)) r.data
              r.last).map fun p => (p.1, r.out ++ p.2)
      else some (-1, text "file read failed\n")

/-- `do_one_file`: the value returned and what is written to the terminal, for a file and
whatever the buffer holds. -/
def doOneFile (calls : Calls) (s fname : Mem) (content : List UInt8) (data : Mem) :
    Option (Int × List UInt8) :=
  (strlen s).bind fun sLen =>
    if calls.opens then rounds calls s fname sLen (content.length + 2) 0 content data 0
    else some (-1, text "file open failed\n")

/-! ### The search of a line -/

theorem ece391StrncmpFrom_eq_zero_iff {s₁ s₂ : Mem} {i : Nat} {bs ps : List UInt8}
    (h₁ : IsString (behind s₁ i) bs) (h₂ : Holds s₂ i ps) (hps : ∀ b ∈ ps, b ≠ 0) :
    ece391StrncmpFrom s₁ s₂ ps.length i = 0 ↔ ps <+: bs := by
  induction ps generalizing i bs with
  | nil => exact iff_of_true rfl List.nil_prefix
  | cons p ps ih =>
      obtain ⟨hp, hps'⟩ := holds_cons.mp h₂
      obtain ⟨hp0, hnz⟩ := List.forall_mem_cons.mp hps
      have hdiff : ∀ b : UInt8, b ≠ p → ((b.toNat : Int) - p.toNat = 0 ↔ False) := by
        intro b hb
        refine iff_false_intro fun h => hb (UInt8.toNat_inj.mp ?_)
        omega
      rw [List.length_cons, ece391StrncmpFrom, hp]
      -- the string ends where the pattern has a character, or both go on
      cases bs with
      | nil =>
          have h0 : s₁ i = 0 := h₁.nul
          rw [h0, if_neg (Ne.symm hp0), hdiff 0 (Ne.symm hp0)]
          simp
      | cons b bs =>
          obtain ⟨hb, hb0, hrest⟩ := h₁.behind_cons
          rw [hb, List.cons_prefix_cons]
          by_cases heq : b = p
          · subst heq
            rw [if_pos rfl, ← ih hrest hps' hnz, and_iff_right rfl]
            -- the last character of the pattern ends the loop
            split_ifs with hlast
            · have hlen : ps.length = 0 := hlast.resolve_left hb0
              rw [hlen]
              exact iff_of_true rfl rfl
            · exact Iff.rfl
          · rw [if_neg heq, hdiff b heq]
            exact ⟨False.elim, fun h => heq h.1.symm⟩

/-- The lines that the search finds. -/
def hit (pattern line : List UInt8) : Bool :=
  decide ((pattern.headD 0).toNat < 128 ∧ pattern <:+: line)

theorem int8_eq_iff {a b : UInt8} : int8 a = b.toNat ↔ a.toNat < 128 ∧ a = b := by
  have ha := a.toNat_lt
  have hb := b.toNat_lt
  rw [int8, ← UInt8.toNat_inj]
  split_ifs
  all_goals omega

section Search

variable {s fname : Mem} {pattern name : List UInt8}

theorem hit_nil (hne : pattern ≠ []) : hit pattern [] = false := by
  simp [hit, hne]

theorem hit_part (as bs : List UInt8) (h : hit pattern as ∨ hit pattern bs) :
    hit pattern (as ++ bs) := by
  simp only [hit, decide_eq_true_eq] at h ⊢
  rcases h with ⟨hlow, hin⟩ | ⟨hlow, hin⟩
  · exact ⟨hlow, hin.trans (List.prefix_append as bs).isInfix⟩
  · exact ⟨hlow, hin.trans (List.suffix_append as bs).isInfix⟩

theorem searchFrom_eq (hs : IsString s pattern) (hne : pattern ≠ []) {data : Mem} {check : Nat}
    {line : List UInt8} (hline : IsString (behind data check) line) :
    searchFrom s data pattern.length line.length check = hit pattern line := by
  induction line generalizing check with
  | nil => exact (hit_nil hne).symm
  | cons b line ih =>
      obtain ⟨hb, -, hrest⟩ := hline.behind_cons
      -- the first byte is compared as a signed character, then all of them by `ece391_strncmp`
      have hhere : (int8 (s 0) = (data check).toNat ∧
            ece391Strncmp (behind data check) s pattern.length = 0) ↔
          (pattern.headD 0).toNat < 128 ∧ pattern <+: b :: line := by
        have hcmp := ece391StrncmpFrom_eq_zero_iff (i := 0)
          (show IsString (behind (behind data check) 0) (b :: line) by
            rwa [show behind (behind data check) 0 = behind data check from
              funext fun i => congrArg (behind data check) (Nat.zero_add i)])
          (fun i hi => by rw [Nat.zero_add]; exact hs.bytes i hi) hs.ne_zero
        rw [ece391Strncmp, hcmp]
        obtain ⟨p, ps, rfl⟩ := List.exists_cons_of_ne_nil hne
        have hp : s 0 = p := hs.bytes 0 (Nat.succ_pos _)
        rw [hp, hb, int8_eq_iff, List.headD_cons, List.cons_prefix_cons]
        tauto
      rw [List.length_cons, searchFrom, ih hrest, hit, hit]
      -- found here, or further on
      by_cases hfound : (pattern.headD 0).toNat < 128 ∧ pattern <+: b :: line
      · rw [if_pos (hhere.mpr hfound), decide_eq_true]
        exact ⟨hfound.1, hfound.2.isInfix⟩
      · rw [if_neg (mt hhere.mp hfound), decide_eq_decide, List.infix_cons_iff]
        tauto

/-- What is printed for a line. -/
def record (name line : List UInt8) : List UInt8 := name ++ text ":" ++ line ++ text "\n"

/-- What is printed for the lines that are found. -/
def shown (pattern name : List UInt8) (content : List UInt8) : List UInt8 :=
  selected (hit pattern) (record name) 10 content

theorem searchLine_eq (hs : IsString s pattern) (hne : pattern ≠ []) (hname : IsString fname name)
    (hnameLen : name.length < 2 ^ 32) {data : Mem} {lineStart : Nat} {line : List UInt8}
    (hline : IsString (behind data lineStart) line) (hlen : line.length < 2 ^ 32)
    (hnl : 10 ∉ line) :
    searchLine s fname pattern.length data lineStart (lineStart + line.length) =
      some (shown pattern name line) := by
  rw [searchLine, Nat.add_sub_cancel_left, searchFrom_eq hs hne hline, shown,
    selected_of_not_mem _ _ hnl, hname.puts hnameLen, hline.puts hlen]
  split_ifs <;> rfl

theorem shown_nil (hne : pattern ≠ []) : shown pattern name [] = [] :=
  selected_nil (record name) (hit_nil hne)

theorem shown_append (hne : pattern ≠ []) {ls : List UInt8} (hls : Ends 10 ls) (xs : List UInt8) :
    shown pattern name (ls ++ xs) = shown pattern name ls ++ shown pattern name xs :=
  selected_append (record name) (hit_nil hne) hls xs

end Search

/-! ### The inner loop -/

theorem lineEndFrom_of_newline {data : Mem} {a left : Nat} {line : List UInt8}
    (hline : Holds data a line) (hnl : 10 ∉ line) (hend : data (a + line.length) = 10)
    (hleft : line.length < left) : lineEndFrom data left a = a + line.length := by
  induction line generalizing a left with
  | nil =>
      obtain ⟨left, rfl⟩ : ∃ l, left = l + 1 := ⟨left - 1, by simp at hleft; omega⟩
      have ha : data a = 10 := hend
      rw [lineEndFrom, ha, if_neg (not_not.mpr rfl)]
      rfl
  | cons b line ih =>
      rw [List.length_cons] at hleft hend
      obtain ⟨left, rfl⟩ : ∃ l, left = l + 1 := ⟨left - 1, by omega⟩
      obtain ⟨hb, hrest⟩ := holds_cons.mp hline
      obtain ⟨hb10, hnl'⟩ := not_or.mp (mt List.mem_cons.mpr hnl)
      have hend' : data (a + 1 + line.length) = 10 := by
        rw [Nat.add_right_comm, Nat.add_assoc]
        exact hend
      rw [lineEndFrom, hb, if_pos (Ne.symm hb10), ih hrest hnl' hend' (by omega), List.length_cons]
      omega

theorem lineEndFrom_of_none {data : Mem} {a : Nat} {line : List UInt8}
    (hline : Holds data a line) (hnl : 10 ∉ line) :
    lineEndFrom data line.length a = a + line.length := by
  induction line generalizing a with
  | nil => rfl
  | cons b line ih =>
      obtain ⟨hb, hrest⟩ := holds_cons.mp hline
      obtain ⟨hb10, hnl'⟩ := not_or.mp (mt List.mem_cons.mpr hnl)
      rw [List.length_cons, lineEndFrom, hb, if_pos (Ne.symm hb10), ih hrest hnl']
      omega

/-- Copying a string down inside its object. -/
theorem ece391StrcpyFrom_eq {left dst src : Nat} {m : Mem} {bs : List UInt8}
    (hsrc : IsString (behind m src) bs) (hlt : dst < src) (hleft : bs.length < left) :
    ∃ m', ece391StrcpyFrom left dst src m = some m' ∧ Holds m' dst bs ∧
      ∀ i, i < dst ∨ dst + bs.length < i → m' i = m i := by
  induction bs generalizing left dst src m with
  | nil =>
      obtain ⟨left, rfl⟩ : ∃ l, left = l + 1 := ⟨left - 1, by simp at hleft; omega⟩
      have h0 : m src = 0 := hsrc.nul
      refine ⟨Function.update m dst (m src), if_pos h0, holds_nil _ _, fun i hi => ?_⟩
      exact Function.update_of_ne (by simp at hi; omega) _ _
  | cons b bs ih =>
      rw [List.length_cons] at hleft
      obtain ⟨left, rfl⟩ : ∃ l, left = l + 1 := ⟨left - 1, by omega⟩
      obtain ⟨hb, hb0, hrest⟩ := hsrc.behind_cons
      -- the byte just written lies before the rest of the source
      have hnext : IsString (behind (Function.update m dst b) (src + 1)) bs := by
        refine Holds.isString (Holds.congr hrest.bytes fun i hi _ => ?_) ?_ hrest.ne_zero
        · exact Function.update_of_ne (by omega) _ _
        · rw [Function.update_of_ne (by omega)]
          exact hrest.nul
      obtain ⟨m', hm', hholds, hframe⟩ :=
        ih hnext (Nat.succ_lt_succ hlt) (Nat.lt_of_succ_lt_succ hleft)
      refine ⟨m', ?_, holds_cons.mpr ⟨?_, hholds⟩, fun i hi => ?_⟩
      · simp only [ece391StrcpyFrom, hb, if_neg hb0]
        exact hm'
      · rw [hframe dst (.inl (Nat.lt_succ_self dst)), Function.update_self]
      · rw [List.length_cons] at hi
        rw [hframe i (by omega), Function.update_of_ne (by omega)]

/-- What the inner loop makes of the bytes `rest` in the buffer from `lineStart` on. -/
inductive Outcome (pattern name : List UInt8) (cnt lineStart : Nat) (data : Mem)
    (rest : List UInt8) : Scanned → Prop
  | lines {r : Scanned} (hends : rest.getLast? = some 10) (hlast : r.last = 0)
      (hout : r.out = shown pattern name rest)
      (hdata : ∀ i, lineStart + rest.length ≤ i → r.data i = data i) :
      Outcome pattern name cnt lineStart data rest r
  | final {r : Scanned} (hopen : rest.getLast? ≠ some 10) (hlast : r.last = 0)
      (hout : r.out = shown pattern name rest) (hnul : r.data (lineStart + rest.length) = 0)
      (hdata : ∀ i, lineStart + rest.length < i → r.data i = data i)
      (hwhy : cnt = 0 ∨ data (lineStart + rest.length) = 10 ∨ lineStart = 0 ∧ 10 ∉ rest) :
      Outcome pattern name cnt lineStart data rest r
  | moved {r : Scanned} (ls as : List UInt8) (hrest : rest = ls ++ as) (hls : Ends 10 ls)
      (has : 10 ∉ as) (hstart : lineStart + ls.length ≠ 0) (hlast : r.last = as.length)
      (hholds : Holds r.data 0 as) (hout : r.out = shown pattern name ls)
      (hnul : r.data (lineStart + rest.length) = 0)
      (hdata : ∀ i, lineStart + rest.length < i → r.data i = data i) (hcnt : cnt ≠ 0)
      (hstale : data (lineStart + rest.length) ≠ 10) :
      Outcome pattern name cnt lineStart data rest r

section Scan

variable {s fname : Mem} {pattern name : List UInt8} (cnt : Nat)

/-- A line before the rest. -/
theorem Outcome.cons_line {lineStart : Nat} {data : Mem} {line rest : List UInt8} {r : Scanned}
    (hrest : rest ≠ [])
    (h : Outcome pattern name cnt (lineStart + line.length + 1)
      (Function.update data (lineStart + line.length) 0) rest r) :
    Outcome pattern name cnt lineStart data (line ++ 10 :: rest)
      { r with out := shown pattern name line ++ r.out } := by
  have hlen : lineStart + (line ++ 10 :: rest).length = lineStart + line.length + 1 + rest.length := by
    rw [List.length_append, List.length_cons]
    omega
  have hbehind : ∀ i, lineStart + line.length < i →
      Function.update data (lineStart + line.length) 0 i = data i :=
    fun i hi => Function.update_of_ne (by omega) _ _
  have hend : (line ++ 10 :: rest).getLast? = rest.getLast? := by
    rw [List.getLast?_append_of_ne_nil _ (List.cons_ne_nil _ _), List.getLast?_cons_of_ne_nil hrest]
  have hshown : ∀ xs, shown pattern name (line ++ 10 :: xs) =
      shown pattern name line ++ shown pattern name xs := fun xs => selected_append_sep _ _ line xs
  -- the rest ends in one of three ways, and none of them looks at the line
  cases h with
  | lines hends hlast hout hdata =>
      refine .lines (hend.trans hends) hlast (by rw [hshown, hout]) fun i hi => ?_
      rw [hlen] at hi
      rw [← hbehind i (by omega)]
      exact hdata i hi
  | final hopen hlast hout hnul hdata hwhy =>
      refine .final (hend ▸ hopen) hlast (by rw [hshown, hout]) (by rw [hlen]; exact hnul)
        (fun i hi => ?_) ?_
      · rw [hlen] at hi
        rw [← hbehind i (by omega)]
        exact hdata i hi
      · rw [hbehind _ (by omega)] at hwhy
        rw [hlen]
        exact hwhy.imp_right fun h => .inl (h.resolve_right fun h0 => by omega)
  | moved ls as hparts hls has hstart hlast hholds hout hnul hdata hcnt hstale =>
      have hends : Ends 10 (line ++ 10 :: ls) := by
        rcases hls with rfl | ⟨ys, rfl⟩
        · exact .inr ⟨line, rfl⟩
        · exact .inr ⟨line ++ 10 :: ys, by simp⟩
      refine .moved (line ++ 10 :: ls) as (by simp [hparts]) hends has (by simp) hlast hholds
        (by rw [hshown, hout]) (by rw [hlen]; exact hnul) (fun i hi => ?_) hcnt ?_
      · rw [hlen] at hi
        rw [← hbehind i (by omega)]
        exact hdata i hi
      · rw [hlen, ← hbehind _ (by omega)]
        exact hstale

variable (hs : IsString s pattern) (hne : pattern ≠ []) (hname : IsString fname name)
  (hnameLen : name.length < 2 ^ 32)

include hs hne hname hnameLen

/-- **The inner loop** comes to its end, in one of the three ways. -/
theorem scan_outcome {left lineStart : Nat} {data : Mem} {rest : List UInt8}
    (hholds : Holds data lineStart rest) (hnz : ∀ b ∈ rest, b ≠ 0)
    (hstart : lineStart ≠ 0 → rest ≠ []) (hsize : lineStart + rest.length ≤ bufSize)
    (hleft : rest.length < left) :
    ∃ r, scan s fname pattern.length cnt left lineStart data (lineStart + rest.length) = some r ∧
      Outcome pattern name cnt lineStart data rest r := by
  induction left generalizing lineStart data rest with
  | zero => omega
  | succ left ih =>
      have hbuf : bufSize < 2 ^ 32 := by decide
      obtain ⟨line, hnl, rfl | ⟨more, rfl⟩⟩ := exists_first_line 10 rest
      · -- the last line, which ends where the data ends
        have hend : lineEndFrom data (lineStart + rest.length - lineStart) lineStart =
            lineStart + rest.length := by
          rw [Nat.add_sub_cancel_left]
          exact lineEndFrom_of_none hholds hnl
        have hline : IsString (behind (Function.update data (lineStart + rest.length) 0) lineStart)
            rest :=
          Holds.isString (hholds.congr fun i _ hi => Function.update_of_ne (by omega) _ _)
            (Function.update_self ..) hnz
        have hopen : rest.getLast? ≠ some 10 := fun h => hnl (List.mem_of_getLast? h)
        have hlen : rest.length < 2 ^ 32 := by omega
        simp only [scan, hend]
        by_cases hmove : data (lineStart + rest.length) ≠ 10 ∧ cnt ≠ 0 ∧ lineStart ≠ 0
        · obtain ⟨hstale, hcnt, hstart0⟩ := hmove
          obtain ⟨moved, hmoved, hdown, hframe⟩ :=
            ece391StrcpyFrom_eq hline (Nat.pos_of_ne_zero hstart0) hlen
          have hnul : moved (lineStart + rest.length) = 0 := by
            rw [hframe _ (by omega), Function.update_self]
          have hbehind : ∀ i, lineStart + rest.length < i → moved i = data i := by
            intro i hi
            rw [hframe i (by omega), Function.update_of_ne (by omega)]
          refine ⟨⟨moved, rest.length, []⟩, ?_, .moved [] rest rfl (.inl rfl) hnl hstart0 rfl hdown
            (shown_nil hne).symm hnul hbehind hcnt hstale⟩
          rw [if_pos ⟨hstale, hcnt, hstart0⟩, ece391Strcpy, hmoved, Nat.add_sub_cancel_left]
          rfl
        · rw [if_neg hmove, searchLine_eq hs hne hname hnameLen hline hlen hnl, Option.bind_some,
            if_pos (Nat.le_add_right _ 1)]
          refine ⟨_, rfl, .final hopen rfl rfl (Function.update_self ..)
            (fun i hi => Function.update_of_ne (by omega) _ _) ?_⟩
          tauto
      · -- a line with its newline
        rw [List.length_append, List.length_cons] at hsize hleft
        obtain ⟨hfirst, hnext⟩ := holds_append.mp hholds
        obtain ⟨hnewline, hmore⟩ := holds_cons.mp hnext
        have hlast : lineStart + (line ++ 10 :: more).length =
            lineStart + line.length + 1 + more.length := by
          rw [List.length_append, List.length_cons]
          omega
        have hend : lineEndFrom data (lineStart + (line ++ 10 :: more).length - lineStart) lineStart =
            lineStart + line.length := by
          rw [Nat.add_sub_cancel_left]
          exact lineEndFrom_of_newline hfirst hnl hnewline (by simp)
        have hline : IsString (behind (Function.update data (lineStart + line.length) 0) lineStart)
            line :=
          Holds.isString (hfirst.congr fun i _ hi => Function.update_of_ne (by omega) _ _)
            (Function.update_self ..) fun b hb => hnz b (List.mem_append_left _ hb)
        simp only [scan, hend, hnewline, ne_eq, not_true_eq_false, false_and, if_false]
        rw [searchLine_eq hs hne hname hnameLen hline (by omega) hnl, Option.bind_some, hlast]
        by_cases hmore0 : more = []
        · subst hmore0
          rw [if_pos (by simp)]
          refine ⟨_, rfl, .lines List.getLast?_concat rfl ?_ fun i hi => ?_⟩
          · have hcut : shown pattern name (line ++ [10]) =
                shown pattern name line ++ shown pattern name [] := selected_append_sep _ _ line []
            rw [hcut, shown_nil hne, List.append_nil]
          · rw [hlast, List.length_nil] at hi
            exact Function.update_of_ne (by omega) _ _
        · have hpos := List.length_pos_iff.mpr hmore0
          rw [if_neg (by omega)]
          have hmore' : Holds (Function.update data (lineStart + line.length) 0)
              (lineStart + line.length + 1) more :=
            hmore.congr fun i hi _ => Function.update_of_ne (by omega) _ _
          obtain ⟨r, hr, hout⟩ := ih hmore' (fun b hb => hnz b (by simp [hb])) (fun _ => hmore0)
            (by omega) (by omega)
          exact ⟨_, by rw [hr]; rfl, hout.cons_line cnt hmore0⟩

end Scan

/-! ### The rounds -/

/-- What a round leaves in the buffer for the next one: the beginning of a line. -/
structure Pending (data : Mem) (part : List UInt8) : Prop where
  holds : Holds data 0 part
  newline : 10 ∉ part
  room : part.length < bufSize

theorem pending_nil (data : Mem) : Pending data [] :=
  ⟨holds_nil data 0, List.not_mem_nil, by decide⟩

/-- The end of the first block of the file that does not end with a line, if there is one. -/
def firstCut (content : List UInt8) : Option Nat :=
  ((List.range (content.length / bufSize)).find? fun k =>
      decide (content[bufSize * (k + 1) - 1]? ≠ some 10)).map fun k => bufSize * (k + 1)

theorem firstCut_of_short {content : List UInt8} (h : content.length < bufSize) :
    firstCut content = none := by
  rw [firstCut, Nat.div_eq_of_lt h]
  rfl

/-- The first block, and the others. -/
theorem firstCut_of_block {content : List UInt8} (h : bufSize ≤ content.length) :
    firstCut content =
      if (content.take bufSize).getLast? = some 10 then
        (firstCut (content.drop bufSize)).map fun c => bufSize + c
      else some bufSize := by
  have hpos : 0 < bufSize := by decide
  have hblocks : content.length / bufSize = (content.drop bufSize).length / bufSize + 1 := by
    rw [List.length_drop, Nat.div_eq_sub_div hpos h]
  have hlast : (content.take bufSize).getLast? = content[bufSize * (0 + 1) - 1]? := by
    rw [List.getLast?_eq_getElem?, List.length_take, Nat.min_eq_left h, Nat.zero_add, Nat.mul_one,
      List.getElem?_take_of_lt (Nat.sub_lt hpos Nat.one_pos)]
  have hothers : ∀ k, content[bufSize * (k + 1 + 1) - 1]? =
      (content.drop bufSize)[bufSize * (k + 1) - 1]? := by
    intro k
    rw [List.getElem?_drop, Nat.mul_succ bufSize (k + 1), Nat.add_comm _ bufSize,
      Nat.add_sub_assoc (Nat.mul_pos hpos (Nat.succ_pos k))]
  rw [firstCut, hblocks, List.range_succ_eq_map, List.find?_cons, hlast]
  -- a newline at the end of the block: the cut is in a later one
  by_cases hends : content[bufSize * (0 + 1) - 1]? = some 10
  · rw [if_pos hends, decide_eq_false (not_not.mpr hends)]
    have hshift : ∀ k, bufSize * (k + 1 + 1) = bufSize + bufSize * (k + 1) := fun k => by
      rw [Nat.mul_succ, Nat.add_comm]
    simp only [List.find?_map, Option.map_map, Function.comp_def, Nat.succ_eq_add_one, hothers,
      firstCut]
    simp only [hshift]
  · rw [if_neg hends, decide_eq_true hends]
    rfl

theorem firstCut_eq_some {content : List UInt8} {c : Nat} (h : firstCut content = some c) :
    content.take c ≠ [] ∧ (content.take c).getLast? ≠ some 10 := by
  obtain ⟨k, hk, rfl⟩ := Option.map_eq_some_iff.mp h
  obtain ⟨hcut, hrange, -⟩ := List.find?_range_eq_some.mp hk
  have hpos : 0 < bufSize * (k + 1) := Nat.mul_pos (by decide) (Nat.succ_pos k)
  have hle : bufSize * (k + 1) ≤ content.length := by
    rw [Nat.mul_comm]
    exact (Nat.le_div_iff_mul_le (by decide)).mp (List.mem_range.mp hrange)
  have hlen : (content.take (bufSize * (k + 1))).length = bufSize * (k + 1) := by
    rw [List.length_take, Nat.min_eq_left hle]
  refine ⟨List.length_pos_iff.mp (by omega), ?_⟩
  rw [List.getLast?_eq_getElem?, hlen, List.getElem?_take_of_lt (by omega)]
  exact of_decide_eq_true hcut

section Rounds

variable {calls : Calls} {s fname : Mem} {pattern name : List UInt8}

/-- The routine returns, with these lines printed. -/
def returns (calls : Calls) (out : List UInt8) : Option (Int × List UInt8) :=
  some ((closing calls).1, out ++ (closing calls).2)

theorem returns_map (out out' : List UInt8) :
    (returns calls out').map (fun p => (p.1, out ++ p.2)) = returns calls (out ++ out') := by
  simp only [returns, Option.map_some, List.append_assoc]

variable (hreads : ∀ call, calls.reads call = true) (hs : IsString s pattern) (hne : pattern ≠ [])
  (hname : IsString fname name) (hnameLen : name.length < 2 ^ 32)

include hreads hs hne hname hnameLen

/-- One round: the bytes read follow the pending ones, and the inner loop goes over both. -/
theorem rounds_succ (left call : Nat) {rest part : List UInt8} {data : Mem}
    (hpart : Pending data part) (hnz : ∀ b ∈ part ++ rest, b ≠ 0) :
    ∃ r data', (∀ i, bufSize ≤ i → data' i = data i) ∧
      Outcome pattern name (rest.take (bufSize - part.length)).length 0 data'
        (part ++ rest.take (bufSize - part.length)) r ∧
      rounds calls s fname pattern.length (left + 1) call rest data part.length =
        if rest = [] then returns calls r.out
        else
          (rounds calls s fname pattern.length left (call + 1) (rest.drop (bufSize - part.length))
            r.data r.last).map fun p => (p.1, r.out ++ p.2) := by
  have hroom := hpart.room
  generalize hgot : rest.take (bufSize - part.length) = got
  have hgotLen : got.length ≤ bufSize - part.length := hgot ▸ List.length_take_le _ _
  -- the read stores behind what is pending
  have hbuffer : Holds (storeAll data (storesAt part.length got)) 0 (part ++ got) := by
    refine holds_append.mpr ⟨?_, ?_⟩
    · exact hpart.holds.congr fun i _ hi => storeAll_of_outside data (by omega)
    · rw [Nat.zero_add]
      exact holds_storeAll data part.length got
  have hnz' : ∀ b ∈ part ++ got, b ≠ 0 := by
    intro b hb
    refine hnz b ((List.mem_append.mp hb).elim (List.mem_append_left _) fun h => ?_)
    exact List.mem_append_right _ (List.mem_of_mem_take (hgot ▸ h))
  have hsize : (part ++ got).length ≤ bufSize := by
    rw [List.length_append]
    omega
  obtain ⟨r, hr, hout⟩ := scan_outcome got.length hs hne hname hnameLen hbuffer hnz'
    (fun h => absurd rfl h) (by rw [Nat.zero_add]; exact hsize) (Nat.lt_succ_of_le hsize)
  refine ⟨r, _, fun i hi => storeAll_of_outside data (by omega), hout, ?_⟩
  have hempty : got.length = 0 ↔ rest = [] := by
    rw [List.length_eq_zero_iff, ← hgot, List.take_eq_nil_iff]
    exact or_iff_right (by omega)
  rw [Nat.zero_add, List.length_append] at hr
  simp only [rounds, hreads, if_true, hgot, hr, Option.bind_some, hempty, returns]

/-- At the end of the file the pending bytes are the last line. -/
theorem rounds_at_end (left call : Nat) {part : List UInt8} {data : Mem} (hpart : Pending data part)
    (hnz : ∀ b ∈ part, b ≠ 0) :
    rounds calls s fname pattern.length (left + 1) call [] data part.length =
      returns calls (shown pattern name part) := by
  obtain ⟨r, data', -, hout, hround⟩ :=
    rounds_succ hreads hs hne hname hnameLen left call hpart
      (show ∀ b ∈ part ++ [], b ≠ 0 by rwa [List.append_nil])
  rw [hround, if_pos rfl]
  rw [List.take_nil, List.append_nil] at hout
  cases hout with
  | lines hends _ hshown _ => rw [hshown]
  | final _ _ hshown _ _ _ => rw [hshown]
  | moved _ _ _ _ _ _ _ _ _ _ _ hcnt _ => exact absurd rfl hcnt

/-- The end of the file fits into the buffer, which is then not full: the byte behind the
data does not matter. -/
theorem rounds_short (left call : Nat) {rest part : List UInt8} {data : Mem}
    (hpart : Pending data part) (hnz : ∀ b ∈ part ++ rest, b ≠ 0)
    (hshort : part.length + rest.length < bufSize) :
    rounds calls s fname pattern.length (left + 2) call rest data part.length =
      returns calls (shown pattern name (part ++ rest)) := by
  obtain ⟨r, data', -, hout, hround⟩ :=
    rounds_succ hreads hs hne hname hnameLen (left + 1) call hpart hnz
  by_cases hrest : rest = []
  · subst hrest
    rw [List.append_nil] at hnz ⊢
    exact rounds_at_end hreads hs hne hname hnameLen (left + 1) call hpart hnz
  rw [hround, if_neg hrest, List.drop_eq_nil_of_le (by omega)]
  rw [List.take_of_length_le (by omega)] at hout
  have hdone : r.last = 0 → r.out = shown pattern name (part ++ rest) →
      (rounds calls s fname pattern.length (left + 1) (call + 1) [] r.data r.last).map
        (fun p => (p.1, r.out ++ p.2)) = returns calls (shown pattern name (part ++ rest)) := by
    intro hlast hshown
    have hend := rounds_at_end hreads hs hne hname hnameLen left (call + 1) (pending_nil r.data)
      (fun b hb => absurd hb List.not_mem_nil)
    rw [hlast, hshown]
    refine (congrArg _ hend).trans ?_
    rw [returns_map, shown_nil hne, List.append_nil]
  -- whatever is pending is printed in the next round, which reads nothing
  cases hout with
  | lines _ hlast hshown _ => exact hdone hlast hshown
  | final _ hlast hshown _ _ _ => exact hdone hlast hshown
  | moved ls as hparts hls has hstart hlast hholds hshown hnul hdata hcnt hstale =>
      have hlen := congrArg List.length hparts
      rw [List.length_append, List.length_append] at hlen
      have hend := rounds_at_end hreads hs hne hname hnameLen left (call + 1)
        ⟨hholds, has, by omega⟩ (fun b hb => hnz b (by rw [hparts]; exact List.mem_append_right _ hb))
      rw [hlast, hshown, hend, returns_map, hparts, shown_append hne hls]

/-- **No newline behind the buffer**: whatever the alignment, each line is searched once. -/
theorem rounds_clean {left : Nat} (call : Nat) {rest part : List UInt8} {data : Mem}
    (hpart : Pending data part) (hnz : ∀ b ∈ part ++ rest, b ≠ 0)
    (hshort : Short 10 (bufSize - 1) (part ++ rest)) (hclean : data bufSize ≠ 10)
    (hleft : rest.length + 2 ≤ left) :
    rounds calls s fname pattern.length left call rest data part.length =
      returns calls (shown pattern name (part ++ rest)) := by
  induction left generalizing call rest part data with
  | zero => omega
  | succ left ih =>
      have hroom := hpart.room
      by_cases hfits : part.length + rest.length < bufSize
      · obtain ⟨left, rfl⟩ : ∃ l, left = l + 1 := ⟨left - 1, by omega⟩
        exact rounds_short hreads hs hne hname hnameLen left call hpart hnz hfits
      obtain ⟨r, data', hsame, hout, hround⟩ :=
        rounds_succ hreads hs hne hname hnameLen left call hpart hnz
      have hrest : rest ≠ [] := by
        rintro rfl
        simp only [List.length_nil] at hfits
        omega
      have hgot : (rest.take (bufSize - part.length)).length = bufSize - part.length := by
        rw [List.length_take]
        omega
      have hfull : (part ++ rest.take (bufSize - part.length)).length = bufSize := by
        rw [List.length_append, hgot]
        omega
      have hdrop : (rest.drop (bufSize - part.length)).length + 2 ≤ left := by
        rw [List.length_drop]
        omega
      have hsplit : part ++ rest = (part ++ rest.take (bufSize - part.length)) ++
          rest.drop (bufSize - part.length) := by
        rw [List.append_assoc, List.take_append_drop]
      rw [hround, if_neg hrest, hsplit]
      rw [hsplit] at hnz hshort
      generalize part ++ rest.take (bufSize - part.length) = buffer at hout hfull hnz hshort ⊢
      generalize rest.drop (bufSize - part.length) = more at hdrop hnz hshort ⊢
      have hbehind : data' (0 + buffer.length) = data bufSize := by
        rw [Nat.zero_add, hfull]
        exact hsame bufSize le_rfl
      cases hout with
      | lines hends hlast hshown hdata =>
          have hnext := hdata bufSize (by omega)
          rw [hsame bufSize le_rfl] at hnext
          have hih := ih (call + 1) (pending_nil r.data)
            (fun b hb => hnz b (List.mem_append_right _ hb)) hshort.of_append (hnext ▸ hclean) hdrop
          rw [hlast, hshown, shown_append hne (ends_of_getLast? hends)]
          exact (congrArg _ hih).trans (returns_map _ _)
      | final hopen hlast hshown hnul hdata hwhy =>
          exfalso
          rcases hwhy with hcnt | hstale | ⟨-, hnl⟩
          · omega
          · exact hclean (hbehind ▸ hstale)
          · -- a line as long as the buffer
            have hle := hshort.length_le hnl
            have hpos : 0 < bufSize := by decide
            omega
      | moved ls as hparts hls has hstart hlast hholds hshown hnul hdata hcnt hstale =>
          subst hparts
          rw [List.length_append] at hfull
          rw [List.append_assoc] at hnz hshort
          -- the byte behind the buffer is the NUL that ended the line before it was copied
          have hnext : r.data bufSize ≠ 10 := by
            rw [← hfull, ← List.length_append, ← Nat.zero_add (ls ++ as).length, hnul]
            decide
          have hih := ih (call + 1) ⟨hholds, has, by omega⟩
            (fun b hb => hnz b (List.mem_append_right _ hb)) hshort.of_append hnext hdrop
          rw [hlast, hshown, hih, returns_map, List.append_assoc, shown_append hne hls]

/-- The lines of a file of which the first cut makes two. -/
def shownCut (pattern name content : List UInt8) : List UInt8 :=
  match firstCut content with
  | none => shown pattern name content
  | some c => shown pattern name (content.take c) ++ shown pattern name (content.drop c)

omit hreads hs hname hnameLen in
theorem shownCut_of_block {content : List UInt8} (h : bufSize ≤ content.length)
    (hends : (content.take bufSize).getLast? = some 10) :
    shownCut pattern name content =
      shown pattern name (content.take bufSize) ++ shownCut pattern name (content.drop bufSize) := by
  have happend : ∀ xs, shown pattern name (content.take bufSize ++ xs) =
      shown pattern name (content.take bufSize) ++ shown pattern name xs :=
    shown_append hne (ends_of_getLast? hends)
  rw [shownCut, shownCut, firstCut_of_block h, if_pos hends]
  cases firstCut (content.drop bufSize) with
  | none => exact (congrArg _ (List.take_append_drop bufSize content).symm).trans (happend _)
  | some c =>
      simp only [Option.map_some]
      rw [List.take_add, happend, List.append_assoc, List.drop_drop]

/-- **A newline behind the buffer** makes two lines of the first one that is cut. -/
theorem rounds_stale {left : Nat} (call : Nat) {rest : List UInt8} {data : Mem}
    (hnz : ∀ b ∈ rest, b ≠ 0) (hshort : Short 10 (bufSize - 1) rest) (hstale : data bufSize = 10)
    (hleft : rest.length + 2 ≤ left) :
    rounds calls s fname pattern.length left call rest data 0 =
      returns calls (shownCut pattern name rest) := by
  induction left generalizing call rest data with
  | zero => omega
  | succ left ih =>
      -- the last block is not full
      by_cases hfits : rest.length < bufSize
      · obtain ⟨left, rfl⟩ : ∃ l, left = l + 1 := ⟨left - 1, by omega⟩
        rw [shownCut, firstCut_of_short hfits]
        exact rounds_short hreads hs hne hname hnameLen left call (pending_nil data) hnz
          (by rw [List.length_nil, Nat.zero_add]; exact hfits)
      have hblock : bufSize ≤ rest.length := Nat.le_of_not_lt hfits
      have hpos : 0 < bufSize := by decide
      obtain ⟨r, data', hsame, hout, hround⟩ :=
        rounds_succ hreads hs hne hname hnameLen left call (pending_nil data) hnz
      rw [List.length_nil, Nat.sub_zero] at hout hround
      rw [List.nil_append] at hout
      have hfull : (rest.take bufSize).length = bufSize := by
        rw [List.length_take, Nat.min_eq_left hblock]
      have hrest : rest ≠ [] := List.length_pos_iff.mp (by omega)
      have hbehind : data' (0 + (rest.take bufSize).length) = 10 := by
        rw [Nat.zero_add, hfull, hsame bufSize le_rfl]
        exact hstale
      have hdrop : (rest.drop bufSize).length + 2 ≤ left := by
        rw [List.length_drop]
        omega
      have hnz' : ∀ b ∈ rest.drop bufSize, b ≠ 0 := fun b hb => hnz b (List.mem_of_mem_drop hb)
      have hshort' : Short 10 (bufSize - 1) (rest.drop bufSize) := by
        rw [← List.take_append_drop bufSize rest] at hshort
        exact hshort.of_append
      rw [hround, if_neg hrest]
      -- if the block is cut inside of a line, the newline behind the buffer ends it, and is gone
      cases hout with
      | lines hends hlast hshown hdata =>
          have hnext := hdata bufSize (by omega)
          rw [hsame bufSize le_rfl, hstale] at hnext
          rw [hlast, hshown, ih (call + 1) hnz' hshort' hnext hdrop, returns_map,
            shownCut_of_block hne hblock hends]
      | final hopen hlast hshown hnul hdata hwhy =>
          have hnext : r.data bufSize ≠ 10 := by
            rw [Nat.zero_add, hfull] at hnul
            rw [hnul]
            decide
          have hclean := rounds_clean hreads hs hne hname hnameLen (call + 1) (pending_nil r.data)
            hnz' hshort' hnext hdrop
          rw [hlast, hshown, shownCut, firstCut_of_block hblock, if_neg hopen]
          exact (congrArg _ hclean).trans (returns_map _ _)
      | moved _ _ _ _ _ _ _ _ _ _ _ _ hclean => exact absurd hbehind hclean

/-- **What `do_one_file` prints**, for every content of the buffer. -/
theorem doOneFile_eq (hopens : calls.opens = true) (hlen : pattern.length < 2 ^ 32)
    {content : List UInt8} (hnz : ∀ b ∈ content, b ≠ 0) (hshort : Short 10 (bufSize - 1) content)
    (data : Mem) :
    doOneFile calls s fname content data =
      returns calls (if data bufSize = 10 then shownCut pattern name content
        else shown pattern name content) := by
  rw [doOneFile, hs.strlen hlen, Option.bind_some, if_pos hopens]
  split_ifs with hstale
  · exact rounds_stale hreads hs hne hname hnameLen 0 hnz hshort hstale le_rfl
  · exact rounds_clean hreads hs hne hname hnameLen 0 (pending_nil data) hnz hshort hstale le_rfl

end Rounds

/-! ### The lines that contain the pattern -/

/-- Every call goes well. -/
def Calls.fine : Calls := ⟨true, fun _ => true, true⟩

/-- The reference: each line that contains the pattern, in the order of the file. -/
def matching (pattern name content : List UInt8) : List UInt8 :=
  selected (fun line => decide (pattern <:+: line)) (record name) 10 content

/-- The routine returns 0 and has printed the lines that contain the pattern. -/
def Prints (s fname : Mem) (pattern name content : List UInt8) (data : Mem) : Prop :=
  doOneFile Calls.fine s fname content data = some (0, matching pattern name content)

/-- The line that the first cut makes two of does not contain the pattern, or the cut is at
its end. -/
def CutUnnoticed (pattern content : List UInt8) : Prop :=
  ∀ c, firstCut content = some c → firstLine 10 (content.drop c) = [] ∨
    ¬ pattern <:+: lastLine 10 (content.take c) ++ firstLine 10 (content.drop c)

theorem shown_eq_matching {pattern : List UInt8} (hlow : (pattern.headD 0).toNat < 128)
    (name content : List UInt8) : shown pattern name content = matching pattern name content := by
  have hhit : hit pattern = fun line => decide (pattern <:+: line) := by
    funext line
    exact decide_eq_decide.mpr (and_iff_right hlow)
  rw [shown, matching, hhit]

theorem shown_of_high {pattern : List UInt8} (hhigh : ¬ (pattern.headD 0).toNat < 128)
    (name content : List UInt8) : shown pattern name content = [] := by
  have hhit : hit pattern = fun _ => false := by
    funext line
    exact decide_eq_false fun h => hhigh h.1
  rw [shown, hhit, selected, List.filter_false]
  rfl

theorem matching_eq_nil_iff (pattern name content : List UInt8) :
    matching pattern name content = [] ↔ ∀ line ∈ content.splitOn 10, ¬ pattern <:+: line := by
  have hrecord : ∀ line, record name line ≠ [] := by
    intro line
    simp [record, text]
  rw [matching, selected, List.flatMap_eq_nil_iff]
  constructor
  · intro h line hline hin
    exact hrecord line (h line (List.mem_filter.mpr ⟨hline, decide_eq_true hin⟩))
  · intro h line hline
    obtain ⟨hmem, hin⟩ := List.mem_filter.mp hline
    exact absurd (of_decide_eq_true hin) (h line hmem)

/-- The cut is unnoticed exactly if the two parts of the file together print the file. -/
theorem shownCut_eq_iff {pattern : List UInt8} (hne : pattern ≠ []) (name content : List UInt8)
    (hlow : (pattern.headD 0).toNat < 128) :
    shownCut pattern name content = shown pattern name content ↔ CutUnnoticed pattern content := by
  rw [shownCut, CutUnnoticed]
  cases hcut : firstCut content with
  | none => exact iff_of_true rfl fun c h => by cases h
  | some c =>
      obtain ⟨hfirst, hopen⟩ := firstCut_eq_some hcut
      have hlen : ∀ as, (record name as).length = as.length + (name.length + 2) := by
        intro as
        simp only [record, List.length_append, text]
        simp
        omega
      have hiff := selected_cut_iff (record name) (hit_nil hne) (Nat.succ_pos _) hlen hit_part
        (lastLine_ne_nil hfirst hopen) (content.drop c)
      rw [List.take_append_drop] at hiff
      simp only [Option.some.injEq, forall_eq']
      refine hiff.trans (or_congr_right ?_)
      rw [hit, decide_eq_false_iff_not, and_iff_right hlow]

/-- **`grep` prints the lines that contain the pattern exactly if** the pattern begins with
an ASCII character, or no line contains it, and the byte behind the buffer is not a newline,
or the first line cut at the end of a full buffer does not matter. -/
theorem prints_iff (s fname : Mem) (pattern name content : List UInt8) (data : Mem)
    (hs : IsString s pattern) (hne : pattern ≠ []) (hlen : pattern.length < 2 ^ 32)
    (hname : IsString fname name)
    (hnameLen : name.length < 2 ^ 32) (hnz : ∀ b ∈ content, b ≠ 0)
    (hlines : ∀ line ∈ content.splitOn 10, line.length ≤ 1023) :
    Prints s fname pattern name content data ↔
      ((pattern.headD 0).toNat < 128 ∨ ∀ line ∈ content.splitOn 10, ¬ pattern <:+: line) ∧
        (data bufSize ≠ 10 ∨ CutUnnoticed pattern content) := by
  have hreads : ∀ call, Calls.fine.reads call = true := fun _ => rfl
  have hprints := doOneFile_eq hreads hs hne hname hnameLen rfl hlen hnz hlines data
  have hreturns : ∀ out out' : List UInt8, returns Calls.fine out = some (0, out') ↔ out = out' := by
    intro out out'
    simp [returns, closing, Calls.fine]
  rw [Prints, hprints, hreturns]
  by_cases hlow : (pattern.headD 0).toNat < 128
  · rw [← shown_eq_matching hlow, and_iff_right (.inl hlow), ← shownCut_eq_iff hne name content hlow]
    split_ifs with hstale <;> simp [hstale]
  · -- nothing is printed
    have hnothing : (if data bufSize = 10 then shownCut pattern name content
        else shown pattern name content) = [] := by
      have hshown := shown_of_high hlow name
      rw [shownCut]
      split_ifs
      · split <;> simp [hshown]
      · exact hshown content
    rw [hnothing, eq_comm, matching_eq_nil_iff, or_iff_right hlow]
    refine ⟨fun hmiss => ⟨hmiss, .inr fun c _ => .inr (hmiss _ ?_)⟩, And.left⟩
    have hmem := cut_line_mem 10 (content.take c) (content.drop c)
    rwa [List.take_append_drop] at hmem

/-- The line `ab` of a file is printed for the pattern `b`. -/
theorem prints_letter :
    let s : Mem := fun i => [98].getD i 0
    let fname : Mem := fun i => [102].getD i 0
    Prints s fname [98] [102] [97, 98, 10, 97] (fun _ => 7) ∧
      matching [98] [102] [97, 98, 10, 97] = [102, 58, 97, 98, 10] := by
  refine ⟨?_, by decide +kernel⟩
  have hs : IsString (fun i => [98].getD i 0) [98] := isString_getD (by simp)
  have hname : IsString (fun i => [102].getD i 0) [102] := isString_getD (by simp)
  exact (prints_iff _ _ [98] [102] [97, 98, 10, 97] (fun _ => 7) hs (by decide) (by decide) hname
    (by decide) (by simp) (by decide +kernel)).mpr ⟨.inl (by decide), .inl (by decide)⟩

/-- A line of 1022 characters and the line `ab`, which the end of the buffer cuts in the
middle. -/
def cutFile : List UInt8 := List.replicate 1022 97 ++ [10, 97, 98]

/-- The one character 128 is not found in a file of just this character; and the line `ab`
is not found when it is cut and a newline stands behind the buffer. -/
theorem prints_not :
    (let s : Mem := fun i => [128].getD i 0
     let fname : Mem := fun i => [102].getD i 0
     doOneFile Calls.fine s fname [128] (fun _ => 7) = some (0, []) ∧
      matching [128] [102] [128] = [102, 58, 128, 10] ∧
      ¬ Prints s fname [128] [102] [128] (fun _ => 7)) ∧
    (let s : Mem := fun i => [97, 98].getD i 0
     let fname : Mem := fun i => [102].getD i 0
     doOneFile Calls.fine s fname cutFile (fun _ => 10) = some (0, []) ∧
      matching [97, 98] [102] cutFile = [102, 58, 97, 98, 10] ∧
      ¬ Prints s fname [97, 98] [102] cutFile (fun _ => 10)) := by
  refine ⟨?_, ?_⟩
  · have hnothing : doOneFile Calls.fine (fun i => [128].getD i 0) (fun i => [102].getD i 0) [128]
        (fun _ => 7) = some (0, []) := by
      decide +kernel
    have hline : matching [128] [102] [128] = [102, 58, 128, 10] := by decide +kernel
    refine ⟨hnothing, hline, fun h => ?_⟩
    rw [Prints, hnothing, hline] at h
    cases h
  · have hnothing : doOneFile Calls.fine (fun i => [97, 98].getD i 0) (fun i => [102].getD i 0)
        cutFile (fun _ => 10) = some (0, []) := by
      -- the general theorem evaluates the run, which is too long to compute
      have hcut : shownCut [97, 98] [102] cutFile = [] := by decide +kernel
      have hs : IsString (fun i => [97, 98].getD i 0) [97, 98] := isString_getD (by simp)
      have hname : IsString (fun i => [102].getD i 0) [102] := isString_getD (by simp)
      have hreads : ∀ call, Calls.fine.reads call = true := fun _ => rfl
      have hnz : ∀ b ∈ cutFile, b ≠ 0 := by decide +kernel
      have hshort : Short 10 (bufSize - 1) cutFile := by
        unfold Short
        decide +kernel
      rw [doOneFile_eq hreads hs (by decide) hname (by decide) rfl (by decide) hnz hshort,
        if_pos rfl, hcut]
      rfl
    have hline : matching [97, 98] [102] cutFile = [102, 58, 97, 98, 10] := by decide +kernel
    refine ⟨hnothing, hline, fun h => ?_⟩
    rw [Prints, hnothing, hline] at h
    cases h

end LinuxBasedOs.Grep
