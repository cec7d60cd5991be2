import Dexfin.Lightning.CommitTx
import Mathlib.Data.List.Lex
import Mathlib.Data.Prod.Lex

/-!
# Sorting a transaction into BIP69 order

`permute_inputs` and `permute_outputs` (`common/permute_tx.c`) sort a transaction's inputs and
outputs by selection, swapping the optional `map` array, and for outputs the optional `cltvs`
array, along with them. The arrays are the fields of `InputArrays` and `OutputArrays`, a
`NULL` array is `none`, and the loop is `SelectSort.roundsFrom` with the C code's swap and
search.

`input_better` and `output_better` are the lexicographic orders of keys (`inputBetter_eq`,
`outputBetter_eq`); for an output the key is its amount, its script bytes with a prefix
first, and its cltv. So both sorts leave no element beaten by a later one, and move each of
their arrays by one permutation of positions (`permuteOutputs_permuteInputs_sorted`). With both
arrays present, `permute_outputs` is the sort of output, cltv and map triples that `commit_tx`
is modelled with (`permuteOutputs_bundled`).
-/

namespace Dexfin.Lightning.PermuteTx

open Bytes SelectSort

/-! ## `memcmp` as the lexicographic order -/

/-- `memcmp` over the shorter length, then the lengths, compare byte strings lexicographically
with a prefix first. -/
theorem memcmp_min_cases (a b : List UInt8) (X : Bool) :
    (match memcmp a b (min a.length b.length) with
      | .lt => true
      | .gt => false
      | .eq => if a.length ≠ b.length then decide (a.length < b.length) else X) =
      (decide (a.map UInt8.toNat < b.map UInt8.toNat) || (decide (a = b) && X)) := by
  induction a generalizing b with
  | nil => cases b <;> simp [memcmp]
  | cons x as ih =>
    cases b with
    | nil => simp [memcmp]
    | cons y bs =>
      simp only [List.length_cons, Nat.add_min_add_right, memcmp, List.map_cons,
        List.cons_lt_cons_iff, List.cons.injEq]
      -- the first bytes decide, or they are equal and the rest decide
      by_cases hxy : x < y
      · simp [hxy, UInt8.lt_iff_toNat_lt.1 hxy]
      by_cases hyx : y < x
      · have hne : x.toNat ≠ y.toNat := by
          rw [UInt8.lt_iff_toNat_lt] at hyx
          omega
        have hnlt : ¬x.toNat < y.toNat := by
          rw [UInt8.lt_iff_toNat_lt] at hyx
          omega
        have hne' : x ≠ y := fun h => hne (congrArg UInt8.toNat h)
        simp [hxy, hyx, hnlt, hne, hne']
      have hxy' : x = y := by
        rw [UInt8.lt_iff_toNat_lt] at hxy hyx
        exact UInt8.toNat_inj.1 (by omega)
      subst hxy'
      simpa [hxy] using ih bs


/-- The same for two byte strings of one length `n`. -/
theorem memcmp_cases_of_length (a b : List UInt8) {n : Nat} (ha : a.length = n)
    (hb : b.length = n) (X : Bool) :
    (match memcmp a b n with
      | .lt => true
      | .gt => false
      | .eq => X) =
      (decide (a.map UInt8.toNat < b.map UInt8.toNat) || (decide (a = b) && X)) := by
  have h := memcmp_min_cases a b X
  rw [ha, hb, min_self] at h
  simpa using h

/-- Bytes read as numbers are the same bytes. -/
@[simp] theorem map_toNat_inj {a b : List UInt8} :
    a.map UInt8.toNat = b.map UInt8.toNat ↔ a = b :=
  (List.map_injective_iff.2 fun _ _ => UInt8.toNat_inj.1).eq_iff

/-! Over one length, the three results of `memcmp` read as the order of the bytes. -/

section SameLength

variable {a b : List UInt8} {n : Nat} (ha : a.length = n) (hb : b.length = n)
include ha hb

theorem memcmp_eq_lt (h : memcmp a b n = .lt) : a.map UInt8.toNat < b.map UInt8.toNat := by
  have hc := memcmp_cases_of_length a b ha hb false
  rw [h] at hc
  simpa using hc.symm

theorem memcmp_eq_gt (h : memcmp a b n = .gt) :
    ¬a.map UInt8.toNat < b.map UInt8.toNat ∧ a ≠ b := by
  have hc := memcmp_cases_of_length a b ha hb true
  rw [h] at hc
  simpa using hc

theorem memcmp_eq_eq (h : memcmp a b n = .eq) :
    ¬a.map UInt8.toNat < b.map UInt8.toNat ∧ a = b := by
  have hf := memcmp_cases_of_length a b ha hb false
  have ht := memcmp_cases_of_length a b ha hb true
  rw [h] at hf ht
  simp only [Bool.and_false, Bool.or_false, Bool.and_true] at hf ht
  have hnlt : ¬a.map UInt8.toNat < b.map UInt8.toNat := of_decide_eq_false hf.symm
  rw [decide_eq_false hnlt, Bool.false_or] at ht
  exact ⟨hnlt, of_decide_eq_true ht.symm⟩

end SameLength

/-! ## The two orders -/

/-- `input_better`: by txid bytes, then the output index, then the script length, then the
script bytes, then the sequence number. A `NULL` script counts as empty, as `tal_count` has
it. -/
def inputBetter (a b : TxInput) : Bool :=
  match memcmp a.txid.bytes b.txid.bytes 32 with
  | .lt => true
  | .gt => false
  | .eq =>
    if a.index ≠ b.index then a.index < b.index
    else
      let lena := (a.script.getD []).length
      let lenb := (b.script.getD []).length
      if lena ≠ lenb then lena < lenb
      else
        match memcmp (a.script.getD []) (b.script.getD []) lena with
        | .lt => true
        | .gt => false
        | .eq => a.sequenceNumber < b.sequenceNumber

/-- What `input_better` orders inputs by. -/
def inputKey (input : TxInput) : Lex (List ℕ × Lex (ℕ × Lex (ℕ × Lex (List ℕ × ℕ)))) :=
  toLex (input.txid.bytes.map UInt8.toNat, toLex (input.index.toNat,
    toLex ((input.script.getD []).length, toLex ((input.script.getD []).map UInt8.toNat,
      input.sequenceNumber.toNat))))

/-- `input_better` is the lexicographic order of `inputKey`. -/
theorem inputBetter_eq (a b : TxInput) :
    inputBetter a b = decide (inputKey a < inputKey b) := by
  unfold inputBetter
  dsimp only
  simp only [inputKey, Prod.Lex.toLex_lt_toLex]
  split
  · next h => simp [memcmp_eq_lt a.txid.length_eq b.txid.length_eq h]
  · next h =>
    obtain ⟨hlt, hne⟩ := memcmp_eq_gt a.txid.length_eq b.txid.length_eq h
    simp [hlt, hne]
  · next h =>
    -- equal txids: the index, the script length, the script bytes and the sequence decide
    obtain ⟨hlt, heq⟩ := memcmp_eq_eq a.txid.length_eq b.txid.length_eq h
    simp only [heq, true_and, BitVec.lt_def]
    by_cases hindex : a.index = b.index
    · rw [if_neg (not_not.2 hindex)]
      simp only [hindex, lt_irrefl, false_or, true_and]
      by_cases hlen : (a.script.getD []).length = (b.script.getD []).length
      · rw [if_neg (not_not.2 hlen)]
        split
        · next hs => simp [memcmp_eq_lt rfl hlen.symm hs, hlen]
        · next hs =>
          obtain ⟨hlt', hne'⟩ := memcmp_eq_gt rfl hlen.symm hs
          simp [hlt', hne', hlen]
        · next hs =>
          obtain ⟨-, heq'⟩ := memcmp_eq_eq rfl hlen.symm hs
          simp [heq']
      · rw [if_pos hlen]
        simp [hlen]
    · have hne : a.index.toNat ≠ b.index.toNat := fun h => hindex (BitVec.eq_of_toNat_eq h)
      simp [hindex, hne]

/-- What `output_better` orders an output with its cltv by: the amount, the script bytes in
lexicographic order with a prefix first, and the cltv. -/
def outputKey (row : TxOutput × BitVec 32) : Lex (ℕ × Lex (List ℕ × ℕ)) :=
  toLex (row.1.amount.toNat, toLex (row.1.script.map UInt8.toNat, row.2.toNat))

/-- `output_better` is the lexicographic order of `outputKey`. -/
theorem outputBetter_eq (a : TxOutput) (cltvA : BitVec 32) (b : TxOutput) (cltvB : BitVec 32) :
    outputBetter a cltvA b cltvB = decide (outputKey (a, cltvA) < outputKey (b, cltvB)) := by
  have hscript := memcmp_min_cases a.script b.script (decide (cltvA < cltvB))
  unfold outputBetter
  dsimp only
  by_cases hamount : a.amount = b.amount
  · -- equal amounts: the script bytes and the cltv decide, as `memcmp` and the lengths say
    rw [if_neg (not_not.2 hamount)]
    generalize memcmp a.script b.script (min a.script.length b.script.length) = m at hscript ⊢
    have hkey : decide (outputKey (a, cltvA) < outputKey (b, cltvB)) =
        (decide (a.script.map UInt8.toNat < b.script.map UInt8.toNat) ||
          (decide (a.script = b.script) && decide (cltvA < cltvB))) := by
      simp [outputKey, Prod.Lex.toLex_lt_toLex, hamount, BitVec.lt_def]
    rw [hkey]
    cases m <;> exact hscript
  · have hne : a.amount.toNat ≠ b.amount.toNat := fun h => hamount (BitVec.eq_of_toNat_eq h)
    simp [hamount, hne, outputKey, Prod.Lex.toLex_lt_toLex, BitVec.lt_def]


/-! ## `permute_inputs` -/

variable {α : Type*}

/-- The arrays `permute_inputs` works on. -/
structure InputArrays (α : Type*) where
  /-- `inputs`. -/
  inputs : List TxInput
  /-- `map`, or `none` for `NULL`. -/
  map : Option (List α)

/-- A `map` array, if there is one, has an entry for each input. -/
def InputArrays.Parallel (s : InputArrays α) : Prop := ∀ map ∈ s.map, map.length = s.inputs.length

/-- `find_best_in`. -/
def findBestIn (inputs : List TxInput) : Nat := findBest inputBetter inputs

/-- `swap_inputs`. -/
def swapInputs (s : InputArrays α) (i1 i2 : Nat) : InputArrays α :=
  if i1 = i2 then s else ⟨s.inputs.swap i1 i2, s.map.map (·.swap i1 i2)⟩

/-- `permute_inputs`: a round at each position but the last, each swapping the best input from
that position on into it. -/
def permuteInputs (s : InputArrays α) : InputArrays α :=
  if s.inputs.length = 0 then s
  else roundsFrom swapInputs (fun s i => findBestIn (s.inputs.drop i)) 0 (s.inputs.length - 1) s

/-- The early return of `swap_inputs` on equal positions is the swap of a position with
itself. -/
theorem swapInputs_eq (s : InputArrays α) (i1 i2 : Nat) :
    swapInputs s i1 i2 = ⟨s.inputs.swap i1 i2, s.map.map (·.swap i1 i2)⟩ := by
  unfold swapInputs
  split_ifs with h
  · subst h
    cases s with
    | mk inputs map => cases map <;> simp
  · rfl

/-- The early return of `permute_inputs` on no inputs is a loop of no rounds. -/
theorem permuteInputs_eq (s : InputArrays α) :
    permuteInputs s =
      roundsFrom swapInputs (fun s i => findBestIn (s.inputs.drop i)) 0 (s.inputs.length - 1) s := by
  unfold permuteInputs
  split_ifs with h
  · rw [h]
    rfl
  · rfl

@[simp] theorem inputs_swapInputs (s : InputArrays α) (i1 i2 : Nat) :
    (swapInputs s i1 i2).inputs = s.inputs.swap i1 i2 := by
  rw [swapInputs_eq]

@[simp] theorem map_swapInputs (s : InputArrays α) (i1 i2 : Nat) :
    (swapInputs s i1 i2).map = s.map.map (·.swap i1 i2) := by
  rw [swapInputs_eq]

theorem InputArrays.Parallel.swapInputs {s : InputArrays α} (hs : s.Parallel) (i1 i2 : Nat) :
    (PermuteTx.swapInputs s i1 i2).Parallel := by
  rw [swapInputs_eq]
  intro map hmap
  obtain ⟨map, hmem, rfl⟩ := Option.mem_map.1 hmap
  simpa using hs map hmem

/-! ## `permute_outputs` -/

/-- The arrays `permute_outputs` works on. -/
structure OutputArrays (α : Type*) where
  /-- `outputs`. -/
  outputs : List TxOutput
  /-- `cltvs`, or `none` for `NULL`. -/
  cltvs : Option (List (BitVec 32))
  /-- `map`, or `none` for `NULL`. -/
  map : Option (List α)

/-- The `cltvs` and `map` arrays, if there are any, have an entry for each output. -/
def OutputArrays.Parallel (s : OutputArrays α) : Prop :=
  (∀ cltvs ∈ s.cltvs, cltvs.length = s.outputs.length) ∧
    ∀ map ∈ s.map, map.length = s.outputs.length

/-- `cltv_of`: with no array every cltv reads as zero. -/
def cltvOf (cltvs : Option (List (BitVec 32))) (idx : Nat) : BitVec 32 :=
  match cltvs with
  | none => 0
  | some cltvs => cltvs.getD idx 0

/-- Each output with the cltv that `find_best_out` compares it by. -/
def outputRows (outputs : List TxOutput) (cltvs : Option (List (BitVec 32))) :
    List (TxOutput × BitVec 32) :=
  outputs.mapIdx fun idx output => (output, cltvOf cltvs idx)

/-- `output_better` of two outputs with their cltvs. -/
def rowBetter (a b : TxOutput × BitVec 32) : Bool := outputBetter a.1 a.2 b.1 b.2

/-- `find_best_out`. -/
def findBestOut (outputs : List TxOutput) (cltvs : Option (List (BitVec 32))) : Nat :=
  findBest rowBetter (outputRows outputs cltvs)

/-- `swap_outputs`. -/
def swapOutputs (s : OutputArrays α) (i1 i2 : Nat) : OutputArrays α :=
  if i1 = i2 then s
  else ⟨s.outputs.swap i1 i2, s.cltvs.map (·.swap i1 i2), s.map.map (·.swap i1 i2)⟩

/-- `permute_outputs`: a round at each position but the last; the search of the round at `i`
reads the outputs and the cltvs from `i` on. -/
def permuteOutputs (s : OutputArrays α) : OutputArrays α :=
  if s.outputs.length = 0 then s
  else roundsFrom swapOutputs (fun s i => findBestOut (s.outputs.drop i) (s.cltvs.map (·.drop i)))
    0 (s.outputs.length - 1) s

theorem swapOutputs_eq (s : OutputArrays α) (i1 i2 : Nat) :
    swapOutputs s i1 i2 =
      ⟨s.outputs.swap i1 i2, s.cltvs.map (·.swap i1 i2), s.map.map (·.swap i1 i2)⟩ := by
  unfold swapOutputs
  split_ifs with h
  · subst h
    cases s with
    | mk outputs cltvs map => cases cltvs <;> cases map <;> simp
  · rfl

theorem permuteOutputs_eq (s : OutputArrays α) :
    permuteOutputs s =
      roundsFrom swapOutputs (fun s i => findBestOut (s.outputs.drop i) (s.cltvs.map (·.drop i)))
        0 (s.outputs.length - 1) s := by
  unfold permuteOutputs
  split_ifs with h
  · rw [h]
    rfl
  · rfl

@[simp] theorem outputs_swapOutputs (s : OutputArrays α) (i1 i2 : Nat) :
    (swapOutputs s i1 i2).outputs = s.outputs.swap i1 i2 := by
  rw [swapOutputs_eq]

@[simp] theorem cltvs_swapOutputs (s : OutputArrays α) (i1 i2 : Nat) :
    (swapOutputs s i1 i2).cltvs = s.cltvs.map (·.swap i1 i2) := by
  rw [swapOutputs_eq]

@[simp] theorem map_swapOutputs (s : OutputArrays α) (i1 i2 : Nat) :
    (swapOutputs s i1 i2).map = s.map.map (·.swap i1 i2) := by
  rw [swapOutputs_eq]

theorem OutputArrays.Parallel.swapOutputs {s : OutputArrays α} (hs : s.Parallel) (i1 i2 : Nat) :
    (PermuteTx.swapOutputs s i1 i2).Parallel := by
  rw [swapOutputs_eq]
  refine ⟨fun cltvs hcltvs => ?_, fun map hmap => ?_⟩
  · obtain ⟨cltvs, hmem, rfl⟩ := Option.mem_map.1 hcltvs
    simpa using hs.1 cltvs hmem
  · obtain ⟨map, hmem, rfl⟩ := Option.mem_map.1 hmap
    simpa using hs.2 map hmem

@[simp] theorem length_outputRows (outputs : List TxOutput) (cltvs : Option (List (BitVec 32))) :
    (outputRows outputs cltvs).length = outputs.length := by
  simp [outputRows]

@[simp] theorem map_fst_outputRows (outputs : List TxOutput) (cltvs : Option (List (BitVec 32))) :
    (outputRows outputs cltvs).map Prod.fst = outputs :=
  List.ext_getElem (by simp) fun k _ _ => by simp [outputRows]

/-- The rows of the outputs from `i` on, with the cltvs from `i` on, are the rows from `i` on:
`cltvs + i` reads the cltvs at the same offsets. -/
theorem outputRows_drop (outputs : List TxOutput) (cltvs : Option (List (BitVec 32))) (i : Nat) :
    outputRows (outputs.drop i) (cltvs.map (·.drop i)) = (outputRows outputs cltvs).drop i := by
  refine List.ext_getElem (by simp) fun k _ _ => ?_
  cases cltvs <;> simp [outputRows, cltvOf, List.getD_eq_getElem?_getD]

/-- With a `cltvs` array of one entry per output, the rows pair the two arrays. -/
theorem outputRows_eq_zip {outputs : List TxOutput} {cltvs : Option (List (BitVec 32))}
    (h : ∀ c ∈ cltvs, c.length = outputs.length) :
    outputRows outputs cltvs = outputs.zip (cltvs.getD (List.replicate outputs.length 0)) := by
  cases cltvs with
  | none => exact List.ext_getElem (by simp) fun k _ _ => by simp [outputRows, cltvOf]
  | some c =>
    have hc := h c rfl
    refine List.ext_getElem (by simp [hc]) fun k hk _ => ?_
    have hkc : k < c.length := by simpa [hc] using hk
    simp [outputRows, cltvOf, List.getD_eq_getElem?_getD, List.getElem?_eq_getElem hkc]

/-- `swap_outputs` swaps the rows. -/
theorem outputRows_swapOutputs {s : OutputArrays α} (hs : s.Parallel) (i1 i2 : Nat) :
    outputRows (swapOutputs s i1 i2).outputs (swapOutputs s i1 i2).cltvs =
      (outputRows s.outputs s.cltvs).swap i1 i2 := by
  rw [outputRows_eq_zip (hs.swapOutputs i1 i2).1, outputRows_eq_zip hs.1, swapOutputs_eq]
  cases hc : s.cltvs with
  | none => simp [swap_zip]
  | some c =>
    have hlen := hs.1 c (by rw [hc]; rfl)
    simp [swap_zip hlen.symm]


/-! ## What the sorts leave -/

theorem inputBetter_irrefl (a : TxInput) : inputBetter a a = false := by
  simp [inputBetter_eq]

theorem inputBetter_trans (a b c : TxInput) (hab : inputBetter a b = true)
    (hbc : inputBetter b c = true) : inputBetter a c = true := by
  simp only [inputBetter_eq, decide_eq_true_eq] at hab hbc ⊢
  exact lt_trans hab hbc

theorem rowBetter_irrefl (a : TxOutput × BitVec 32) : rowBetter a a = false := by
  simp [rowBetter, outputBetter_eq]

theorem rowBetter_trans (a b c : TxOutput × BitVec 32) (hab : rowBetter a b = true)
    (hbc : rowBetter b c = true) : rowBetter a c = true := by
  simp only [rowBetter, outputBetter_eq, decide_eq_true_eq] at hab hbc ⊢
  exact lt_trans hab hbc

section Inputs

variable (s : InputArrays α)

/-- The state of the rounds of `permute_inputs` on `s`: parallel arrays of its length. -/
def InputArrays.Like (t : InputArrays α) : Prop := t.Parallel ∧ t.inputs.length = s.inputs.length

theorem InputArrays.Like.swapInputs {t : InputArrays α} (ht : s.Like t) (i1 i2 : Nat) :
    s.Like (PermuteTx.swapInputs t i1 i2) :=
  ⟨ht.1.swapInputs i1 i2, by rw [swapInputs_eq, List.length_swap, ht.2]⟩

/-- The round at a position of the inputs swaps it with a later one. -/
theorem findBestIn_drop_lt {t : InputArrays α} (ht : s.Like t) (i : Nat)
    (hi : i < s.inputs.length) : i + findBestIn (t.inputs.drop i) < s.inputs.length := by
  have hne : t.inputs.drop i ≠ [] := by
    rw [ne_eq, List.drop_eq_nil_iff, ht.2]
    omega
  have := findBest_lt inputBetter hne
  rw [List.length_drop, ht.2] at this
  rw [findBestIn]
  omega

/-- `permute_inputs` sorts the inputs. -/
theorem inputs_permuteInputs :
    (permuteInputs s).inputs = sort inputBetter s.inputs := by
  rw [permuteInputs_eq]
  exact roundsFrom_view inputBetter (fun (_ : InputArrays α) _ _ (_ : True) => trivial)
    (fun t => t.inputs) (fun t i j _ => inputs_swapInputs t i j) (fun _ _ _ => rfl) 0 _ s trivial

/-- `permute_inputs` moves the inputs and the map by one permutation of positions, which fixes
every position past the inputs. -/
theorem permuteInputs_moves (hs : s.Parallel) :
    ∃ σ : Equiv.Perm ℕ, (∀ k, s.inputs.length ≤ k → σ k = k) ∧
      PermutedBy σ s.inputs (permuteInputs s).inputs ∧
      Option.Rel (PermutedBy σ) s.map (permuteInputs s).map := by
  have hs' : s.Like s := ⟨hs, rfl⟩
  have hinv : ∀ t i j, s.Like t → s.Like (swapInputs t i j) := fun t i j ht => ht.swapInputs s i j
  have hbest : ∀ (t : InputArrays α) i, s.Like t → i < s.inputs.length →
      i + findBestIn (t.inputs.drop i) < s.inputs.length :=
    fun t i ht hi => findBestIn_drop_lt s ht i hi
  have hk : 0 + (s.inputs.length - 1) ≤ s.inputs.length := by omega
  rw [permuteInputs_eq]
  refine ⟨_, roundsPerm_fixes hinv hbest 0 _ s hs' hk, ?_, ?_⟩
  · -- the inputs array is always there
    have h := roundsPerm_moves hinv hbest (fun t => some t.inputs)
      (fun t i j _ => by rw [inputs_swapInputs]; rfl)
      (fun t ht l hl => by obtain rfl := Option.mem_some_iff.1 hl; exact ht.2) 0 _ s hs' hk
    cases h with
    | some h => exact h
  · exact roundsPerm_moves hinv hbest (fun t => t.map) (fun t i j _ => map_swapInputs t i j)
      (fun t ht l hl => (ht.1 l hl).trans ht.2) 0 _ s hs' hk

end Inputs

section Outputs

variable (s : OutputArrays α)

/-- The state of the rounds of `permute_outputs` on `s`: parallel arrays of its length. -/
def OutputArrays.Like (t : OutputArrays α) : Prop :=
  t.Parallel ∧ t.outputs.length = s.outputs.length

theorem OutputArrays.Like.swapOutputs {t : OutputArrays α} (ht : s.Like t) (i1 i2 : Nat) :
    s.Like (PermuteTx.swapOutputs t i1 i2) :=
  ⟨ht.1.swapOutputs i1 i2, by rw [outputs_swapOutputs, List.length_swap, ht.2]⟩

/-- The search of a round reads the rows from its position on. -/
theorem findBestOut_drop (t : OutputArrays α) (i : Nat) :
    findBestOut (t.outputs.drop i) (t.cltvs.map (·.drop i)) =
      findBest rowBetter ((outputRows t.outputs t.cltvs).drop i) := by
  rw [findBestOut, outputRows_drop]

/-- The round at a position of the outputs swaps it with a later one. -/
theorem findBestOut_drop_lt {t : OutputArrays α} (ht : s.Like t) (i : Nat)
    (hi : i < s.outputs.length) :
    i + findBestOut (t.outputs.drop i) (t.cltvs.map (·.drop i)) < s.outputs.length := by
  have hne : (outputRows t.outputs t.cltvs).drop i ≠ [] := by
    rw [ne_eq, List.drop_eq_nil_iff, length_outputRows, ht.2]
    omega
  have := findBest_lt rowBetter hne
  rw [List.length_drop, length_outputRows, ht.2] at this
  rw [findBestOut_drop]
  omega

/-- `permute_outputs` sorts the rows of outputs and cltvs. -/
theorem outputRows_permuteOutputs (hs : s.Parallel) :
    outputRows (permuteOutputs s).outputs (permuteOutputs s).cltvs =
      sort rowBetter (outputRows s.outputs s.cltvs) := by
  rw [permuteOutputs_eq, sort, length_outputRows]
  exact roundsFrom_view rowBetter (fun t i j (ht : OutputArrays.Parallel t) => ht.swapOutputs i j)
    (fun t => outputRows t.outputs t.cltvs) (fun t i j ht => outputRows_swapOutputs ht i j)
    (fun t i _ => findBestOut_drop t i) 0 _ s hs

/-- `permute_outputs` moves the outputs, the cltvs and the map by one permutation of
positions, which fixes every position past the outputs. -/
theorem permuteOutputs_moves (hs : s.Parallel) :
    ∃ σ : Equiv.Perm ℕ, (∀ k, s.outputs.length ≤ k → σ k = k) ∧
      PermutedBy σ s.outputs (permuteOutputs s).outputs ∧
      Option.Rel (PermutedBy σ) s.cltvs (permuteOutputs s).cltvs ∧
      Option.Rel (PermutedBy σ) s.map (permuteOutputs s).map := by
  have hs' : s.Like s := ⟨hs, rfl⟩
  have hinv : ∀ t i j, s.Like t → s.Like (swapOutputs t i j) :=
    fun t i j ht => ht.swapOutputs s i j
  have hbest : ∀ (t : OutputArrays α) i, s.Like t → i < s.outputs.length →
      i + findBestOut (t.outputs.drop i) (t.cltvs.map (·.drop i)) < s.outputs.length :=
    fun t i ht hi => findBestOut_drop_lt s ht i hi
  have hk : 0 + (s.outputs.length - 1) ≤ s.outputs.length := by omega
  rw [permuteOutputs_eq]
  refine ⟨_, roundsPerm_fixes hinv hbest 0 _ s hs' hk, ?_, ?_, ?_⟩
  · -- the outputs array is always there
    have h := roundsPerm_moves hinv hbest (fun t => some t.outputs)
      (fun t i j _ => by rw [outputs_swapOutputs]; rfl)
      (fun t ht l hl => by obtain rfl := Option.mem_some_iff.1 hl; exact ht.2) 0 _ s hs' hk
    cases h with
    | some h => exact h
  · exact roundsPerm_moves hinv hbest (fun t => t.cltvs) (fun t i j _ => cltvs_swapOutputs t i j)
      (fun t ht l hl => (ht.1.1 l hl).trans ht.2) 0 _ s hs' hk
  · exact roundsPerm_moves hinv hbest (fun t => t.map) (fun t i j _ => map_swapOutputs t i j)
      (fun t ht l hl => (ht.1.2 l hl).trans ht.2) 0 _ s hs' hk

end Outputs

/-- `permute_outputs` and `permute_inputs` on parallel arrays: the result is a permutation of
the input, no element is beaten by a later one under `output_better` (with the cltvs that
`cltv_of` reads) or `input_better`, and the arrays side by side are all moved by one
permutation of positions. -/
theorem permuteOutputs_permuteInputs_sorted :
    (∀ s : OutputArrays α, s.Parallel →
      (permuteOutputs s).outputs.Perm s.outputs ∧
      (outputRows (permuteOutputs s).outputs (permuteOutputs s).cltvs).Pairwise
        (fun a b => outputBetter b.1 b.2 a.1 a.2 = false) ∧
      ∃ σ : Equiv.Perm ℕ, (∀ k, s.outputs.length ≤ k → σ k = k) ∧
        PermutedBy σ s.outputs (permuteOutputs s).outputs ∧
        Option.Rel (PermutedBy σ) s.cltvs (permuteOutputs s).cltvs ∧
        Option.Rel (PermutedBy σ) s.map (permuteOutputs s).map) ∧
    (∀ s : InputArrays α, s.Parallel →
      (permuteInputs s).inputs.Perm s.inputs ∧
      (permuteInputs s).inputs.Pairwise (fun a b => inputBetter b a = false) ∧
      ∃ σ : Equiv.Perm ℕ, (∀ k, s.inputs.length ≤ k → σ k = k) ∧
        PermutedBy σ s.inputs (permuteInputs s).inputs ∧
        Option.Rel (PermutedBy σ) s.map (permuteInputs s).map) := by
  refine ⟨fun s hs => ⟨?_, ?_, permuteOutputs_moves s hs⟩,
    fun s hs => ⟨?_, ?_, permuteInputs_moves s hs⟩⟩
  · -- the outputs are the first halves of the sorted rows
    have h := congrArg (List.map Prod.fst) (outputRows_permuteOutputs s hs)
    rw [map_fst_outputRows] at h
    rw [h]
    simpa using (sort_perm rowBetter (outputRows s.outputs s.cltvs)).map Prod.fst
  · rw [outputRows_permuteOutputs s hs]
    exact sort_pairwise rowBetter_irrefl rowBetter_trans _
  · rw [inputs_permuteInputs]
    exact sort_perm _ _
  · rw [inputs_permuteInputs]
    exact sort_pairwise inputBetter_irrefl inputBetter_trans _

theorem permuteOutputs_permuteInputs_sorted_two :
    (⟨[⟨1, [0]⟩, ⟨0, [1]⟩], none, some [7, 8]⟩ : OutputArrays ℕ).Parallel ∧
      (permuteOutputs (⟨[⟨1, [0]⟩, ⟨0, [1]⟩], none, some [7, 8]⟩ : OutputArrays ℕ)).outputs.Perm
        [⟨1, [0]⟩, ⟨0, [1]⟩] := by
  have hpar : (⟨[⟨1, [0]⟩, ⟨0, [1]⟩], none, some [7, 8]⟩ : OutputArrays ℕ).Parallel := by
    simp [OutputArrays.Parallel]
  exact ⟨hpar, (permuteOutputs_permuteInputs_sorted.1 _ hpar).1⟩

/-- The smaller amount goes first and its map entry with it. -/
example : (permuteOutputs (⟨[⟨1, [0]⟩, ⟨0, [1]⟩], none, some [7, 8]⟩ : OutputArrays ℕ)).map =
    some [8, 7] := by
  decide

/-! ## The sort `commit_tx` is modelled with -/

/-- The three arrays of a list of output, cltv and map triples. -/
def unzipOutputs (outputs : List CommitOutput) : OutputArrays (Option Htlc) :=
  ⟨outputs.map (·.1), some (outputs.map (·.2.1)), some (outputs.map (·.2.2))⟩

/-- The triples of three arrays. -/
def zipOutputs (s : OutputArrays (Option Htlc)) : List CommitOutput :=
  s.outputs.zip ((s.cltvs.getD []).zip (s.map.getD []))

/-- Both arrays are there, with an entry for each output. -/
def OutputArrays.Full (s : OutputArrays (Option Htlc)) : Prop :=
  s.cltvs.isSome ∧ s.map.isSome ∧ s.Parallel

/-- Full arrays are two lists of the outputs' length. -/
theorem OutputArrays.Full.cases {outputs : List TxOutput} {cltvs : Option (List (BitVec 32))}
    {map : Option (List (Option Htlc))} (hs : OutputArrays.Full ⟨outputs, cltvs, map⟩) :
    ∃ c m, cltvs = some c ∧ map = some m ∧ c.length = outputs.length ∧
      m.length = outputs.length := by
  obtain ⟨hc, hm, hcl, hml⟩ := hs
  obtain ⟨c, rfl⟩ := Option.isSome_iff_exists.1 hc
  obtain ⟨m, rfl⟩ := Option.isSome_iff_exists.1 hm
  exact ⟨c, m, rfl, rfl, hcl c rfl, hml m rfl⟩

theorem zipOutputs_unzipOutputs (outputs : List CommitOutput) :
    zipOutputs (unzipOutputs outputs) = outputs := by
  refine List.ext_getElem (by simp [zipOutputs, unzipOutputs]) fun k _ _ => ?_
  simp [zipOutputs, unzipOutputs]

theorem OutputArrays.Full.unzipOutputs_zipOutputs {s : OutputArrays (Option Htlc)}
    (hs : s.Full) : unzipOutputs (zipOutputs s) = s := by
  obtain ⟨outputs, cltvs, map⟩ := s
  obtain ⟨c, m, rfl, rfl, hcl, hml⟩ := hs.cases
  simp only [unzipOutputs, zipOutputs, Option.getD_some, OutputArrays.mk.injEq, Option.some.injEq]
  refine ⟨?_, ?_, ?_⟩ <;>
    exact List.ext_getElem (by simp [hcl, hml]) fun k _ _ => by simp

theorem OutputArrays.Full.swapOutputs {s : OutputArrays (Option Htlc)} (hs : s.Full)
    (i1 i2 : Nat) : (PermuteTx.swapOutputs s i1 i2).Full :=
  ⟨by simpa using hs.1, by simpa using hs.2.1, hs.2.2.swapOutputs i1 i2⟩

/-- `swap_outputs` swaps the triples. -/
theorem zipOutputs_swapOutputs {s : OutputArrays (Option Htlc)} (hs : s.Full) (i1 i2 : Nat) :
    zipOutputs (swapOutputs s i1 i2) = (zipOutputs s).swap i1 i2 := by
  obtain ⟨outputs, cltvs, map⟩ := s
  obtain ⟨c, m, rfl, rfl, hcl, hml⟩ := hs.cases
  simp only [zipOutputs, swapOutputs_eq, Option.map_some, Option.getD_some]
  rw [swap_zip (by simp [hcl, hml]), swap_zip (by rw [hcl, hml])]

/-- The search of a round on full arrays is the search of the triples by their outputs and
cltvs. -/
theorem findBestOut_zipOutputs {s : OutputArrays (Option Htlc)} (hs : s.Full) (i : Nat) :
    findBestOut (s.outputs.drop i) (s.cltvs.map (·.drop i)) =
      findBest (fun a b : CommitOutput => outputBetter a.1 a.2.1 b.1 b.2.1)
        ((zipOutputs s).drop i) := by
  have hrows : outputRows s.outputs s.cltvs = (zipOutputs s).map fun x => (x.1, x.2.1) := by
    obtain ⟨outputs, cltvs, map⟩ := s
    obtain ⟨c, m, rfl, rfl, hcl, hml⟩ := hs.cases
    rw [outputRows_eq_zip (by simpa using hcl)]
    exact List.ext_getElem (by simp [zipOutputs, hcl, hml]) fun k _ _ => by simp [zipOutputs]
  rw [findBestOut_drop, hrows, ← List.map_drop, findBest_map]
  rfl

/-- With both arrays present, `permute_outputs` is the sort of output, cltv and map triples
that `commit_tx` is modelled with. -/
theorem permuteOutputs_bundled (outputs : List CommitOutput) :
    permuteOutputs (unzipOutputs outputs) = unzipOutputs (Lightning.permuteOutputs outputs) := by
  have hfull : (unzipOutputs outputs).Full :=
    ⟨rfl, rfl, fun c hc => by cases hc; simp [unzipOutputs],
      fun m hm => by cases hm; simp [unzipOutputs]⟩
  have hinv : ∀ t i j, OutputArrays.Full t → (swapOutputs t i j).Full :=
    fun t i j ht => ht.swapOutputs i j
  have hview := roundsFrom_view (fun a b : CommitOutput => outputBetter a.1 a.2.1 b.1 b.2.1)
    hinv zipOutputs (fun t i j ht => zipOutputs_swapOutputs ht i j)
    (fun t i ht => findBestOut_zipOutputs ht i) 0 ((unzipOutputs outputs).outputs.length - 1)
    (unzipOutputs outputs) hfull
  rw [zipOutputs_unzipOutputs] at hview
  rw [permuteOutputs_eq, ← (roundsFrom_inv hinv _ _ _ hfull).unzipOutputs_zipOutputs, hview]
  simp [unzipOutputs, Lightning.permuteOutputs, SelectSort.sort]

end Dexfin.Lightning.PermuteTx
