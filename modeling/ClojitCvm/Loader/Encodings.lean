import ClojitCvm.Loader.RoundTrip

/-!
# Words and strings of a file

The loader has two functions that turn the bytes of a word around, one for integers
and one for doubles, and two cases with the same code for tables of strings.  This
module has what each pair has in common.

Main results:

- Theorem {lit}`swapInt64_eq_swap`: the masked shifts and the byte assignments are one
  involution, which reads the encoded value of a raw word.
- Theorem {lit}`parseSection_stringTable`: both cases for strings leave pointers to the
  strings of the table and end where the header says.
-/

namespace ClojitCvm

open ByteMemory Slot

/-! ## Reversed words -/

/-- A word has one reversal. -/
theorem Reverses.unique {n : Nat} {x y z : BitVec (8 * n)} (hy : Reverses n x y)
    (hz : Reverses n x z) : y = z := by
  apply BitVec.eq_of_getLsbD_eq
  intro i hi
  rw [hy i hi, hz i hi]

/-- Reversing twice gives the word back. -/
theorem Reverses.twice {n : Nat} {x y z : BitVec (8 * n)} (hy : Reverses n x y)
    (hz : Reverses n y z) : z = x := by
  apply BitVec.eq_of_getLsbD_eq
  intro i hi
  have hindex : 8 * (n - 1 - (8 * (n - 1 - i / 8) + i % 8) / 8) +
      (8 * (n - 1 - i / 8) + i % 8) % 8 = i := by omega
  rw [hz i hi, hy _ (by omega), hindex]

/-- Byte {lit}`k` of the reversal is byte {lit}`n - 1 - k` of the word. -/
theorem Reverses.byte {n k : Nat} {x y : BitVec (8 * n)} (h : Reverses n x y) (hk : k < n) :
    y.extractLsb' (8 * k) 8 = x.extractLsb' (8 * (n - 1 - k)) 8 := by
  apply BitVec.eq_of_getLsbD_eq
  intro i hi
  have hdiv : (8 * k + i) / 8 = k := by omega
  have hmod : (8 * k + i) % 8 = i := by omega
  rw [BitVec.getLsbD_extractLsb', BitVec.getLsbD_extractLsb', h _ (by omega), hdiv, hmod]

/-- The two swappers agree, byte {lit}`k` of their result is byte {lit}`7 - k` of the
word, and both undo themselves.  On a raw word of a file both give the encoded value,
a signed integer or the bits of a double. -/
theorem swapInt64_eq_swap (x : BitVec 64) :
    swapInt64 x = swap x ∧
      (∀ k < 8, (swapInt64 x).extractLsb' (8 * k) 8 = x.extractLsb' (8 * (7 - k)) 8) ∧
      swapInt64 (swapInt64 x) = x ∧ swap (swap x) = x ∧
      (∀ (mem : Memory) (a : Nat) (v : Int), -2 ^ 63 ≤ v → v < 2 ^ 63 →
        HasBytes mem a (beBytes 8 (BitVec.ofInt 64 v).toNat) →
          (swapInt64 (loadWord mem a 8)).toInt = v) ∧
      ∀ (mem : Memory) (a : Nat) (d : Double), HasBytes mem a (beBytes 8 d.toNat) →
        swap (loadWord mem a 8) = d := by
  refine ⟨(swapInt64_reverses x).unique (swap_reverses x), fun k => (swapInt64_reverses x).byte,
    (swapInt64_reverses x).twice (swapInt64_reverses _),
    (swap_reverses x).twice (swap_reverses _), ?_, fun mem a d => swap_of_bytes⟩
  intro mem a v hle hlt h
  rw [swapInt64_of_bytes h, BitVec.toInt_ofInt]
  exact Int.bmod_eq_of_le (by omega) (by omega)

/-- The integer -2 is read back. -/
theorem swapInt64_minusTwo :
    (swapInt64 (loadWord (ofBytes 0 [255#8, 255#8, 255#8, 255#8, 255#8, 255#8, 255#8, 254#8])
      0 8)).toInt = -2 :=
  (swapInt64_eq_swap 0#64).2.2.2.2.1 _ 0 (-2) (by decide) (by decide) (hasBytes_ofBytes 0 _)

/-! ## String tables -/

/-- On an encoded section the loop moves over the body and loads the data behind the
count, unless the section holds types. -/
theorem parseSection_body {debugLevel : Int} {mem : Memory} {buf offset : Nat} {s : Section}
    (sec : Sections) (h : HasBytes mem (buf + offset) s.body) (hs : s.WellFormed)
    (hreach : s.count ≠ 0 → offset + 4 < 2 ^ 32) (hkind : s.kind ≠ .types) :
    parseSection debugLevel mem buf s.kind.id s.data.length offset sec =
      some (offset + 4 + s.data.length,
        SectionAt.load debugLevel mem sec ⟨s.kind, s.count, dataAt buf offset⟩) := by
  have hadvance := advance_sectionAt h hs hreach hkind
  rw [s.length_body] at hadvance
  rw [parseSection_eq, SectionKind.ofId?_id, Option.map_some]
  simp only [sectionAt_body h hs, hadvance, Nat.add_assoc]

/-- Strings and keywords are decoded exactly.  The cases leave pointers that address
the strings, for any strings without a NUL, and both go on where a case that adds the
length in the header would. -/
theorem parseSection_stringTable {debugLevel : Int} {mem : Memory} {buf offset : Nat}
    {strings : List (List Byte)} (sec : Sections) (hnul : ∀ string ∈ strings, 0#8 ∉ string)
    (hbytes : HasBytes mem (buf + offset) (beBytes 4 strings.length ++ stringTable strings))
    (hsize : offset + 4 + (stringTable strings).length < 2 ^ 32) :
    ∃ pointers, AreStrings mem pointers strings ∧
      parseSection debugLevel mem buf SectionKind.cstr.id (stringTable strings).length offset
          sec =
        some (offset + 4 + (stringTable strings).length,
          { sec with cstrCnt := strings.length, cstr := pointers }) ∧
      parseSection debugLevel mem buf SectionKind.ckey.id (stringTable strings).length offset
          sec =
        some (offset + 4 + (stringTable strings).length,
          { sec with ckeyCnt := strings.length, ckey := pointers }) ∧
      ∀ kind ∈ [SectionKind.instructions, .cint, .cfloat, .vtables],
        (parseSection debugLevel mem buf kind.id (stringTable strings).length offset sec).map
            Prod.fst =
          some (offset + 4 + (stringTable strings).length) := by
  have hlength := length_stringTable strings
  have hcount : strings.length < 2 ^ 32 := by omega
  have hlt : (stringTable strings).length < 2 ^ 32 := by omega
  have hreach : strings.length ≠ 0 → offset + 4 < 2 ^ 32 := fun _ => by omega
  have hdata (hne : strings.length ≠ 0) : HasBytes mem (dataAt buf offset) (stringTable strings) :=
    hasBytes_dataAt (s := .cstr strings) hbytes hreach hne
  refine ⟨stringPointers mem (dataAt buf offset) strings.length,
    areStrings_stringPointers hdata hlt hnul,
    parseSection_body (s := .cstr strings) sec hbytes ⟨hcount, hlt, hnul⟩ hreach nofun,
    parseSection_body (s := .ckey strings) sec hbytes ⟨hcount, hlt, hnul⟩ hreach nofun, ?_⟩
  intro kind hkind
  have hadvance : (sectionAt mem buf kind offset).advance mem (stringTable strings).length =
      (stringTable strings).length + 4 := by
    simp only [List.mem_cons, List.not_mem_nil, or_false] at hkind
    rcases hkind with rfl | rfl | rfl | rfl <;> rfl
  rw [parseSection_eq, SectionKind.ofId?_id, Option.map_some, Option.map_some]
  simp only [hadvance, Nat.add_comm, Nat.add_assoc]

/-- A table of the empty string and {lit}`a`, at the beginning of memory. -/
theorem emptyStringAndA_stringTable :
    ∃ pointers, AreStrings (ofBytes 0 (beBytes 4 2 ++ stringTable [[], [97#8]])) pointers
        [[], [97#8]] ∧
      parseSection 0 (ofBytes 0 (beBytes 4 2 ++ stringTable [[], [97#8]])) 0
          SectionKind.ckey.id 15 0 Sections.zero =
        some (19, { Sections.zero with ckeyCnt := 2, ckey := pointers }) := by
  obtain ⟨pointers, hstrings, -, hckey, -⟩ := @parseSection_stringTable 0 _ 0 0 [[], [97#8]]
    Sections.zero (by decide) (hasBytes_ofBytes 0 _) (by decide)
  exact ⟨pointers, hstrings, hckey⟩

end ClojitCvm
