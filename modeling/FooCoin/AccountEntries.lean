import FooCoin.Library.PrefixFree
import FooCoin.Library.PrefixScan
import FooCoin.WalletAmounts

/-!
# Accounting entries

The wallet file keeps its records in the order of their keys.  `ListAccountCreditDebit` sets a cursor
to the first accounting entry of an account, or of all accounts, and reads on until the account or the
type of record changes.  `move` writes two entries that cancel out.
-/

namespace FooCoin

open LittleEndian Codec PrefixScan

/-- `CAccountingEntry`. -/
structure CAccountingEntry where
  strAccount : Account
  nCreditDebit : Int64
  nTime : Int64
  strOtherAccount : Account
  strComment : List UInt8

/-- A record of the wallet file. -/
inductive WalletRecord
  /-- An accounting entry with its number. -/
  | acentry (nNumber : UInt64) (entry : CAccountingEntry)
  /-- A record of another type. -/
  | other (strType : List UInt8) (key value : List UInt8)

/-- The type of accounting entries. -/
def acentryType : List UInt8 := [97, 99, 101, 110, 116, 114, 121]

/-- The key of an accounting entry. -/
def acentryKey (strAccount : Account) (nNumber : UInt64) : List UInt8 :=
  writeVector acentryType ++ (writeVector strAccount ++ leBytes 8 nNumber.toNat)

/-- The key of a record. -/
def WalletRecord.key : WalletRecord → List UInt8
  | .acentry nNumber entry => acentryKey entry.strAccount nNumber
  | .other strType key _ => writeVector strType ++ key

/-- The order of the keys compares their bytes as numbers. -/
def WalletRecord.order (record : WalletRecord) : List Nat := record.key.map UInt8.toNat

/-- A type or a name that can be read back, and other records have another type. -/
def WalletRecord.WellFormed : WalletRecord → Prop
  | .acentry _ entry => entry.strAccount.length ≤ maxSize
  | .other strType _ _ => strType.length ≤ maxSize ∧ strType ≠ acentryType

/-- The wallet file. -/
structure WalletDB where
  records : List WalletRecord
  sorted : records.Pairwise fun left right => left.order < right.order
  wellFormed : ∀ record ∈ records, record.WellFormed

/-- The loop of `ListAccountCreditDebit` from a record on, of all accounts if there is none. -/
def listEntries (strAccount : Option Account) : List WalletRecord → List CAccountingEntry
  | .acentry _ entry :: records =>
      if strAccount.all fun strAccount => entry.strAccount = strAccount then
        entry :: listEntries strAccount records
      else []
  | _ => []

/-- The name that stands for all accounts. -/
def allAccounts : Account := [42]

/-- `CWalletDB::ListAccountCreditDebit`. -/
def WalletDB.listAccountCreditDebit (db : WalletDB) (strAccount : Account) :
    List CAccountingEntry :=
  let fAllAccounts := strAccount = allAccounts
  let start := (acentryKey (if fAllAccounts then [] else strAccount) 0).map UInt8.toNat
  listEntries (if fAllAccounts then none else some strAccount)
    (db.records.dropWhile fun record => record.order < start)

/-- The sum of some accounting entries. -/
def creditDebit (entries : List CAccountingEntry) : BitVec 64 :=
  (entries.map fun entry => entry.nCreditDebit.toBitVec).sum

/-- `CWalletDB::GetAccountCreditDebit`. -/
def WalletDB.getAccountCreditDebit (db : WalletDB) (strAccount : Account) : BitVec 64 :=
  creditDebit (db.listAccountCreditDebit strAccount)

/-- The accounting entry of a record. -/
def WalletRecord.entry : WalletRecord → Option CAccountingEntry
  | .acentry _ entry => some entry
  | .other .. => none

/-- The accounting entries in the wallet file. -/
def WalletDB.acentries (db : WalletDB) : List CAccountingEntry :=
  db.records.filterMap WalletRecord.entry

/-! ## Writing -/

/-- `Write` of a record, in place of one with the same key. -/
def WalletDB.write (db : WalletDB) (record : WalletRecord) (wellFormed : record.WellFormed) :
    WalletDB where
  records := (db.records.filter fun other => other.order < record.order) ++
    record :: db.records.filter fun other => record.order < other.order
  sorted := by
    refine List.pairwise_append.mpr ⟨db.sorted.sublist List.filter_sublist, ?_, ?_⟩
    · refine List.pairwise_cons.mpr ⟨fun other member => ?_, db.sorted.sublist List.filter_sublist⟩
      exact of_decide_eq_true (List.mem_filter.mp member).2
    · intro left left_mem right right_mem
      have before := of_decide_eq_true (List.mem_filter.mp left_mem).2
      rcases List.mem_cons.mp right_mem with rfl | after
      · exact before
      · exact before.trans (of_decide_eq_true (List.mem_filter.mp after).2)
  wellFormed := by
    intro other member
    rcases List.mem_append.mp member with before | here
    · exact db.wellFormed other (List.mem_filter.mp before).1
    · rcases List.mem_cons.mp here with rfl | after
      · exact wellFormed
      · exact db.wellFormed other (List.mem_filter.mp after).1

/-- What `movecmd` writes, after the number of the last entry: the debit and the credit. -/
def WalletDB.movecmd (db : WalletDB) (nAccountingEntryNumber : UInt64) (strFrom strTo : Account)
    (from_fits : strFrom.length ≤ maxSize) (to_fits : strTo.length ≤ maxSize)
    (nAmount nNow : Int64) (strComment : List UInt8) : WalletDB :=
  let debit : CAccountingEntry :=
    { strAccount := strFrom
      nCreditDebit := -nAmount
      nTime := nNow
      strOtherAccount := strTo
      strComment }
  let credit : CAccountingEntry :=
    { strAccount := strTo
      nCreditDebit := nAmount
      nTime := nNow
      strOtherAccount := strFrom
      strComment }
  (db.write (.acentry (nAccountingEntryNumber + 1) debit) from_fits).write
    (.acentry (nAccountingEntryNumber + 2) credit) to_fits

/-- A wallet file whose accounting entries were written by `move` only, and the number of the last
one. -/
inductive MovedOnly : WalletDB → UInt64 → Prop
  | start {db : WalletDB} (unmoved : db.acentries = []) : MovedOnly db 0
  | other {db : WalletDB} {nAccountingEntryNumber : UInt64} (strType key value : List UInt8)
      (wellFormed : (WalletRecord.other strType key value).WellFormed)
      (moved : MovedOnly db nAccountingEntryNumber) :
      MovedOnly (db.write (.other strType key value) wellFormed) nAccountingEntryNumber
  | move {db : WalletDB} {nAccountingEntryNumber : UInt64} (strFrom strTo : Account)
      (from_fits : strFrom.length ≤ maxSize) (to_fits : strTo.length ≤ maxSize)
      (nAmount nNow : Int64) (strComment : List UInt8)
      (numbers : nAccountingEntryNumber.toNat + 2 < 2 ^ 64)
      (moved : MovedOnly db nAccountingEntryNumber) :
      MovedOnly (db.movecmd nAccountingEntryNumber strFrom strTo from_fits to_fits nAmount nNow
        strComment) (nAccountingEntryNumber + 2)

/-! ## Reading -/

/-- The front of the keys that the loop looks for. -/
private def scanFront (strAccount : Option Account) : List Nat :=
  (writeVector acentryType ++ (strAccount.map writeVector).getD []).map UInt8.toNat

private theorem map_toNat_prefix {left right : List UInt8} :
    left.map UInt8.toNat <+: right.map UInt8.toNat ↔ left <+: right :=
  List.prefix_map_iff_of_injective fun _ _ => UInt8.toNat_inj.mp

private theorem prefixFreeOn_name :
    PrefixFree.PrefixFreeOn writeVector {bytes | bytes.length ≤ maxSize} :=
  PrefixFree.prefixFreeOn_of_reads fun _ fits => reads_readVector fits

private theorem acentryType_fits : acentryType.length ≤ maxSize := by decide

/-- The loop goes on at a record of the account, of which the key has the front. -/
private theorem scanFront_prefix_iff {record : WalletRecord} (wellFormed : record.WellFormed)
    {strAccount : Option Account} (fits : ∀ name ∈ strAccount, name.length ≤ maxSize) :
    scanFront strAccount <+: record.order ↔ ∃ entry, record.entry = some entry ∧
      ∀ name ∈ strAccount, entry.strAccount = name := by
  rw [scanFront, WalletRecord.order, map_toNat_prefix]
  cases record with
  | other strType key value =>
      refine ⟨fun found => ?_, fun ⟨_, absent, _⟩ => by simp [WalletRecord.entry] at absent⟩
      obtain ⟨rest, same⟩ := found
      rw [List.append_assoc] at same
      exact absurd (prefixFreeOn_name acentryType_fits wellFormed.1 same).1.symm wellFormed.2
  | acentry nNumber entry =>
      simp only [WalletRecord.key, acentryKey, WalletRecord.entry, Option.some.injEq, exists_eq_left',
        List.prefix_append_right_inj]
      cases strAccount with
      | none => simp
      | some name =>
          simp only [Option.map_some, Option.getD_some, Option.mem_def, Option.some.injEq,
            forall_eq']
          constructor
          · rintro ⟨rest, same⟩
            exact (prefixFreeOn_name (fits name rfl) wellFormed same).1.symm
          · rintro rfl
            exact List.prefix_append _ _

/-- Zeros are the least of the lists that are no shorter. -/
private theorem not_lt_zeros {count : Nat} {values : List Nat} (longer : count ≤ values.length) :
    ¬values < List.replicate count 0 := by
  induction count generalizing values with
  | zero => exact List.not_lt_nil values
  | succ count induction =>
      cases values with
      | nil => simp at longer
      | cons value values =>
          rw [List.replicate_succ, List.cons_lt_cons_iff]
          rintro (less | ⟨-, less⟩)
          · exact Nat.not_lt_zero value less
          · exact induction (Nat.le_of_succ_le_succ longer) less

private theorem not_append_lt {front left right : List Nat} (later : ¬left < right) :
    ¬front ++ left < front ++ right := by
  induction front with
  | nil => exact later
  | cons first front induction =>
      rw [List.cons_append, List.cons_append, List.cons_lt_cons_iff]
      rintro (less | ⟨-, less⟩)
      · exact lt_irrefl first less
      · exact induction less

/-- The key from which a scan starts. -/
private def scanStart (strAccount : Option Account) : List Nat :=
  (acentryKey (strAccount.getD []) 0).map UInt8.toNat

private theorem scanStart_eq (strAccount : Option Account) :
    ∃ count, scanStart strAccount = scanFront strAccount ++ List.replicate count 0 ∧
      count ≤ (if strAccount.isSome then 8 else 9) := by
  have zeros : (leBytes 8 (0 : UInt64).toNat).map UInt8.toNat = List.replicate 8 0 := by decide
  have unnamed : (writeVector []).map UInt8.toNat = [0] := by decide
  cases strAccount with
  | some name =>
      refine ⟨8, ?_, le_rfl⟩
      simp only [scanStart, scanFront, acentryKey, Option.getD_some, Option.map_some,
        List.map_append, zeros, List.append_assoc]
  | none =>
      refine ⟨9, ?_, le_rfl⟩
      simp only [scanStart, scanFront, acentryKey, Option.getD_none, Option.map_none,
        List.map_append, zeros, unnamed, List.append_nil]
      rfl

/-- What follows the front in the key of an entry of the account. -/
private theorem length_after_scanFront {record : WalletRecord} {entry : CAccountingEntry}
    {strAccount : Option Account} (own : record.entry = some entry)
    (named : ∀ name ∈ strAccount, entry.strAccount = name) {rest : List Nat}
    (same : scanFront strAccount ++ rest = record.order) :
    (if strAccount.isSome then 8 else 9) ≤ rest.length := by
  have some_size (name : Account) : 0 < (writeVector name).length := by
    have first : writeCompactSize name.length ≠ [] := by
      unfold writeCompactSize
      split_ifs <;> simp [leBytes]
    rw [writeVector, List.length_append]
    exact Nat.add_pos_left (List.length_pos_of_ne_nil first) _
  cases record with
  | other strType key value => simp [WalletRecord.entry] at own
  | acentry nNumber own_entry =>
      obtain rfl := Option.some.inj own
      have lengths := congrArg List.length same
      simp only [scanFront, WalletRecord.order, WalletRecord.key, acentryKey, List.length_append,
        List.length_map, length_leBytes] at lengths
      have size := some_size own_entry.strAccount
      cases strAccount with
      | none =>
          simp only [Option.map_none, Option.getD_none, List.length_nil] at lengths
          simp only [Option.isSome_none, Bool.false_eq_true, if_false]
          omega
      | some name =>
          obtain rfl := named name rfl
          simp only [Option.map_some, Option.getD_some] at lengths
          simp only [Option.isSome_some, if_true]
          omega

/-- The loop over the records finds every entry of the account. -/
private theorem listEntries_eq {records : List WalletRecord}
    (wellFormed : ∀ record ∈ records, record.WellFormed) {strAccount : Option Account}
    (fits : ∀ name ∈ strAccount, name.length ≤ maxSize) :
    listEntries strAccount records =
      (records.takeWhile fun record => scanFront strAccount <+: record.order).filterMap WalletRecord.entry := by
  induction records with
  | nil => rfl
  | cons record records induction =>
      obtain ⟨first, rest⟩ := List.forall_mem_cons.mp wellFormed
      have iff := scanFront_prefix_iff first fits
      by_cases found : scanFront strAccount <+: record.order
      · obtain ⟨entry, own, named⟩ := iff.mp found
        rw [List.takeWhile_cons_of_pos (by simpa using found), List.filterMap_cons_some own,
          ← induction rest]
        cases record with
        | other strType key value => simp [WalletRecord.entry] at own
        | acentry nNumber own_entry =>
            obtain rfl := Option.some.inj own
            rw [listEntries, if_pos]
            simpa [Option.all_eq_true] using named
      · rw [List.takeWhile_cons_of_neg (by simpa using found), List.filterMap_nil]
        cases record with
        | other strType key value => rfl
        | acentry nNumber entry =>
            rw [listEntries, if_neg]
            intro every
            refine found (iff.mpr ⟨entry, rfl, ?_⟩)
            simpa [Option.all_eq_true] using every

/-- A scan lists the entries of the account. -/
private theorem scan_entries (db : WalletDB) {strAccount : Option Account}
    (fits : ∀ name ∈ strAccount, name.length ≤ maxSize) :
    listEntries strAccount
        (db.records.dropWhile fun record => record.order < scanStart strAccount) =
      db.acentries.filter fun entry => strAccount.all fun name => entry.strAccount = name := by
  obtain ⟨count, start, small⟩ := scanStart_eq strAccount
  have prefixed : scanFront strAccount <+: scanStart strAccount :=
    ⟨List.replicate count 0, start.symm⟩
  have least : ∀ record ∈ db.records, scanFront strAccount <+: record.order →
      scanStart strAccount ≤ record.order := by
    intro record member found
    obtain ⟨entry, own, named⟩ := (scanFront_prefix_iff (db.wellFormed record member) fits).mp found
    obtain ⟨rest, same⟩ := found
    have longer := small.trans (length_after_scanFront own named same)
    rw [start, ← same]
    exact not_lt.mp (not_append_lt (not_lt_zeros longer))
  have scanned := scan_eq_filter db.sorted prefixed least
  rw [scan] at scanned
  rw [listEntries_eq (fun record member =>
    db.wellFormed record ((List.dropWhile_sublist _).subset member)) fits, scanned,
    WalletDB.acentries, List.filterMap_filter, List.filter_filterMap]
  refine List.filterMap_congr fun record member => ?_
  have iff := scanFront_prefix_iff (db.wellFormed record member) fits
  cases own : record.entry with
  | none => simp
  | some entry =>
      have same : scanFront strAccount <+: record.order ↔
          (strAccount.all fun name => entry.strAccount = name) = true := by
        rw [iff, own]
        simp [Option.all_eq_true]
      simp only [decide_eq_true_eq, same, Option.filter_some]

private theorem listEntries_missing {records : List WalletRecord} {strAccount : Account}
    (missing : ∀ record ∈ records, ∀ entry, record.entry = some entry →
      entry.strAccount ≠ strAccount) : listEntries (some strAccount) records = [] := by
  cases records with
  | nil => rfl
  | cons record records =>
      cases record with
      | other strType key value => rfl
      | acentry nNumber entry =>
          rw [listEntries, if_neg]
          simpa using missing _ List.mem_cons_self entry rfl

/-- The entries of an account are all those under its name. -/
theorem listAccountCreditDebit_eq (db : WalletDB) {strAccount : Account}
    (named : strAccount ≠ allAccounts) :
    db.listAccountCreditDebit strAccount =
      db.acentries.filter fun entry => entry.strAccount = strAccount := by
  rw [WalletDB.listAccountCreditDebit]
  simp only [if_neg named]
  by_cases fits : strAccount.length ≤ maxSize
  · exact @scan_entries db (some strAccount) (by simpa using fits)
  · have missing : ∀ record ∈ db.records, ∀ entry, record.entry = some entry →
        entry.strAccount ≠ strAccount := by
      rintro record member entry own rfl
      have wellFormed := db.wellFormed record member
      cases record with
      | other strType key value => simp [WalletRecord.entry] at own
      | acentry nNumber own_entry =>
          obtain rfl := Option.some.inj own
          exact fits wellFormed
    have filtered : (db.acentries.filter fun entry => entry.strAccount = strAccount) = [] := by
      refine List.filter_eq_nil_iff.mpr fun entry member => ?_
      obtain ⟨record, inside, own⟩ := List.mem_filterMap.mp member
      simpa using missing record inside entry own
    rw [filtered]
    exact listEntries_missing fun record member =>
      missing record ((List.dropWhile_sublist _).subset member)

/-- The entries of all accounts. -/
theorem listAccountCreditDebit_all (db : WalletDB) :
    db.listAccountCreditDebit allAccounts = db.acentries := by
  rw [WalletDB.listAccountCreditDebit]
  simp only [if_true]
  exact (@scan_entries db none (by simp)).trans (List.filter_eq_self.mpr fun _ _ => rfl)

/-- The scan for an account finds each of its entries once, the scan for `*` each entry once, and the
balance is their sum. -/
theorem accountEntries_exact (db : WalletDB) (strAccount : Account) :
    db.listAccountCreditDebit strAccount = (db.acentries.filter fun entry =>
        strAccount = allAccounts ∨ entry.strAccount = strAccount) ∧
      db.getAccountCreditDebit strAccount = ((db.acentries.filter fun entry =>
        strAccount = allAccounts ∨ entry.strAccount = strAccount).map
          fun entry => entry.nCreditDebit.toBitVec).sum := by
  have scanned : db.listAccountCreditDebit strAccount = db.acentries.filter fun entry =>
      strAccount = allAccounts ∨ entry.strAccount = strAccount := by
    by_cases every : strAccount = allAccounts
    · subst every
      rw [listAccountCreditDebit_all]
      simp
    · rw [listAccountCreditDebit_eq db every]
      simp [every]
  refine ⟨scanned, ?_⟩
  rw [WalletDB.getAccountCreditDebit, scanned, creditDebit]

/-! ## Moving -/

private theorem creditDebit_append (left right : List WalletRecord) :
    creditDebit ((left ++ right).filterMap WalletRecord.entry) =
      creditDebit (left.filterMap WalletRecord.entry) +
        creditDebit (right.filterMap WalletRecord.entry) := by
  simp [creditDebit]

/-- The entries before and after a key, if there is none under the key itself. -/
private theorem creditDebit_split {records : List WalletRecord} {order : List Nat}
    (replaced : ∀ other ∈ records, other.order = order → other.entry = none) :
    creditDebit (records.filterMap WalletRecord.entry) =
      creditDebit ((records.filter fun other => other.order < order).filterMap WalletRecord.entry) +
        creditDebit
          ((records.filter fun other => order < other.order).filterMap WalletRecord.entry) := by
  induction records with
  | nil => simp [creditDebit]
  | cons record records induction =>
      obtain ⟨first, rest⟩ := List.forall_mem_cons.mp replaced
      have own := creditDebit_append [record]
      simp only [List.singleton_append] at own
      rcases lt_trichotomy record.order order with less | same | greater
      · rw [List.filter_cons_of_pos (by simpa using less),
          List.filter_cons_of_neg (by simpa using less.le), own records, own (List.filter _ _),
          induction rest, add_assoc]
      · rw [List.filter_cons_of_neg (by simp [same]), List.filter_cons_of_neg (by simp [same]),
          List.filterMap_cons_none (first same), induction rest]
      · rw [List.filter_cons_of_neg (by simpa using greater.le),
          List.filter_cons_of_pos (by simpa using greater), own records, own (List.filter _ _),
          induction rest, add_left_comm]

/-- A record that replaces no entry adds its own. -/
private theorem creditDebit_write {db : WalletDB} {record : WalletRecord}
    (wellFormed : record.WellFormed)
    (replaced : ∀ other ∈ db.records, other.order = record.order → other.entry = none) :
    creditDebit (db.write record wellFormed).acentries =
      creditDebit record.entry.toList + creditDebit db.acentries := by
  have single : creditDebit ([record].filterMap WalletRecord.entry) =
      creditDebit record.entry.toList := by
    cases own : record.entry <;> simp [own]
  rw [WalletDB.acentries, WalletDB.acentries, WalletDB.write, creditDebit_append,
    ← List.singleton_append, creditDebit_append, single, creditDebit_split replaced]
  ring

private theorem acentryKey_injective {left right : Account} (left_fits : left.length ≤ maxSize)
    (right_fits : right.length ≤ maxSize) {nLeft nRight : UInt64}
    (same : acentryKey left nLeft = acentryKey right nRight) : nLeft = nRight := by
  have keys := List.append_cancel_left same
  obtain ⟨-, numbers⟩ := prefixFreeOn_name left_fits right_fits keys
  exact UInt64.toNat_inj.mp (leBytes_injective nLeft.toNat_lt nRight.toNat_lt numbers)

/-- The numbers of the entries are at most the last one. -/
private def Numbered (db : WalletDB) (nAccountingEntryNumber : UInt64) : Prop :=
  ∀ nNumber entry, WalletRecord.acentry nNumber entry ∈ db.records →
    nNumber ≤ nAccountingEntryNumber

/-- An entry with a greater number replaces none. -/
private theorem Numbered.fresh {db : WalletDB} {nLast nNumber : UInt64}
    (numbered : Numbered db nLast) (greater : nLast < nNumber) {entry : CAccountingEntry}
    (fits : entry.strAccount.length ≤ maxSize) :
    ∀ other ∈ db.records, other.order = (WalletRecord.acentry nNumber entry).order →
      other.entry = none := by
  intro other member same
  have wellFormed := db.wellFormed other member
  have keys : other.key = acentryKey entry.strAccount nNumber :=
    List.map_injective_iff.mpr (fun _ _ => UInt8.toNat_inj.mp) same
  cases other with
  | other strType key value => rfl
  | acentry nOther own =>
      obtain rfl := acentryKey_injective wellFormed fits keys
      exact absurd (numbered _ _ member) (UInt64.not_le.mpr greater)

private theorem Numbered.write {db : WalletDB} {nLast nNumber : UInt64}
    (numbered : Numbered db nLast) {record : WalletRecord} (wellFormed : record.WellFormed)
    (grows : nLast ≤ nNumber)
    (own : ∀ nOwn entry, record = .acentry nOwn entry → nOwn ≤ nNumber) :
    Numbered (db.write record wellFormed) nNumber := by
  intro nOther entry member
  have old (inside : WalletRecord.acentry nOther entry ∈ db.records) : nOther ≤ nNumber :=
    UInt64.le_trans (numbered nOther entry inside) grows
  rcases List.mem_append.mp member with before | here
  · exact old (List.mem_filter.mp before).1
  · rcases List.mem_cons.mp here with same | after
    · exact own nOther entry same.symm
    · exact old (List.mem_filter.mp after).1

private theorem MovedOnly.balanced {db : WalletDB} {nLast : UInt64} (moved : MovedOnly db nLast) :
    Numbered db nLast ∧ creditDebit db.acentries = 0 := by
  induction moved with
  | @start db unmoved =>
      refine ⟨fun nNumber entry member => ?_, by simp [unmoved, creditDebit]⟩
      have listed : entry ∈ db.acentries := List.mem_filterMap.mpr ⟨_, member, rfl⟩
      simp [unmoved] at listed
  | @other db nLast strType key value wellFormed moved induction =>
      obtain ⟨numbered, zero⟩ := induction
      refine ⟨numbered.write wellFormed UInt64.le_rfl fun _ _ same => by simp at same, ?_⟩
      have replaced : ∀ other ∈ db.records,
          other.order = (WalletRecord.other strType key value).order → other.entry = none := by
        intro other member same
        have keys : other.key = writeVector strType ++ key :=
          List.map_injective_iff.mpr (fun _ _ => UInt8.toNat_inj.mp) same
        cases other with
        | other strType key value => rfl
        | acentry nNumber entry =>
            exact absurd (prefixFreeOn_name acentryType_fits wellFormed.1 keys).1.symm wellFormed.2
      rw [creditDebit_write wellFormed replaced, zero]
      simp [WalletRecord.entry, creditDebit]
  | @move db nLast strFrom strTo from_fits to_fits nAmount nNow strComment numbers moved induction =>
      obtain ⟨numbered, zero⟩ := induction
      have one : nLast < nLast + 1 := by
        rw [UInt64.lt_iff_toNat_lt, UInt64.toNat_add]
        simp
        omega
      have two : nLast + 1 < nLast + 2 := by
        rw [UInt64.lt_iff_toNat_lt, UInt64.toNat_add, UInt64.toNat_add]
        simp
        omega
      let debit : CAccountingEntry := ⟨strFrom, -nAmount, nNow, strTo, strComment⟩
      let credit : CAccountingEntry := ⟨strTo, nAmount, nNow, strFrom, strComment⟩
      have debited : Numbered (db.write (.acentry (nLast + 1) debit) from_fits) (nLast + 1) :=
        @Numbered.write db nLast (nLast + 1) numbered (.acentry (nLast + 1) debit) from_fits
          (UInt64.le_of_lt one) fun _ _ same => by
            cases same
            exact UInt64.le_rfl
      have debit_fresh := @Numbered.fresh db nLast (nLast + 1) numbered one debit from_fits
      have credit_fresh := @Numbered.fresh _ (nLast + 1) (nLast + 2) debited two credit to_fits
      refine ⟨@Numbered.write _ _ _ debited (.acentry (nLast + 2) credit) to_fits
        (UInt64.le_of_lt two) fun _ _ same => ?_, ?_⟩
      · cases same
        exact UInt64.le_rfl
      · have first := @creditDebit_write db (.acentry (nLast + 1) debit) from_fits debit_fresh
        have second := @creditDebit_write _ (.acentry (nLast + 2) credit) to_fits credit_fresh
        rw [first, zero] at second
        refine second.trans ?_
        simp [WalletRecord.entry, creditDebit, debit, credit]

/-- Moves cancel out. -/
theorem MovedOnly.creditDebit_eq {db : WalletDB} {nLast : UInt64} (moved : MovedOnly db nLast) :
    creditDebit db.acentries = 0 :=
  moved.balanced.2

end FooCoin
