import FooCoin.AddrManDisk

/-!
# Restoring the address manager

The loops that read entries and buckets.  Entries get the ids of their positions, and references from
the buckets that are read after them.
-/

namespace FooCoin

open Codec Function

/-- An entry as it is restored. -/
def CAddrInfo.restored (nRefCount nRandomPos : Int) (info : CAddrInfo) : CAddrInfo :=
  { info with nLastTry := 0, nRefCount, nRandomPos }

namespace CAddrMan

/-- The manager holds the entries of a list, each under its position as id. -/
structure Restoring (order : List CAddrInfo) (am : CAddrMan) : Prop where
  directory : ({ am with nIdCount := order.length } : CAddrMan).Directory
  length : am.vRandom.length = order.length
  entry : ∀ (k : Nat) info, order[k]? = some info → ∃ pos,
    am.mapInfo.find k = some (info.restored (holders am.vvNew k).card pos)

variable {crypto : Crypto} {order : List CAddrInfo} {am : CAddrMan} {info : CAddrInfo}

theorem Restoring.congr (restoring : Restoring order am) {after : CAddrMan}
    (same_info : after.mapInfo = am.mapInfo) (same_addr : after.mapAddr = am.mapAddr)
    (same_random : after.vRandom = am.vRandom) (same_new : after.vvNew = am.vvNew) :
    Restoring order after := by
  constructor
  · exact restoring.directory.congr rfl same_info same_addr same_random
  · rw [same_random, restoring.length]
  · rw [same_info, same_new]
    exact restoring.entry

/-- Every id of a restored manager is a position. -/
theorem Restoring.find_eq_some (restoring : Restoring order am) {nId : Int} :
    am.mapInfo.find nId = some info ↔ ∃ (k : Nat) (old : CAddrInfo) (pos : Int), nId = k ∧
      order[k]? = some old ∧ info = old.restored (holders am.vvNew k).card pos ∧
        am.mapInfo.find k = some info := by
  constructor
  · intro found
    obtain ⟨nonneg, small⟩ := restoring.directory.range nId info found
    obtain ⟨k, rfl⟩ := Int.eq_ofNat_of_zero_le nonneg
    have within : (k : Int) < order.length := small
    rw [Nat.cast_lt] at within
    obtain ⟨pos, stored⟩ := restoring.entry k _ (List.getElem?_eq_getElem within)
    obtain rfl := Option.some.inj (found.symm.trans stored)
    exact ⟨k, _, pos, rfl, List.getElem?_eq_getElem within, rfl, stored⟩
  · rintro ⟨k, old, pos, rfl, -, -, found⟩
    exact found

/-- The next entry is restored if its address is new. -/
private theorem Restoring.push (restoring : Restoring order am)
    (fresh : info.toCNetAddr ∉ order.map fun info => info.toCNetAddr)
    (unheld : ∀ nB, (order.length : Int) ∉ am.vvNew nB) {after : CAddrMan}
    (same_info : after.mapInfo = am.mapInfo.insert order.length
      (info.restored 0 am.vRandom.length))
    (same_addr : after.mapAddr = update am.mapAddr info.toCNetAddr (some (order.length : Int)))
    (same_random : after.vRandom = am.vRandom ++ [(order.length : Int)])
    (same_new : after.vvNew = am.vvNew) : Restoring (order ++ [info]) after := by
  have missing : CAddrMan.find info.toCNetAddr
      ({ am with nIdCount := order.length } : CAddrMan) = none := by
    cases found : CAddrMan.find info.toCNetAddr
        ({ am with nIdCount := order.length } : CAddrMan) with
    | none => rfl
    | some entry =>
        obtain ⟨stored, same⟩ := restoring.directory.find_eq_some.mp found
        obtain ⟨k, old, pos, -, listed, restored, -⟩ := restoring.find_eq_some.mp stored
        refine absurd (List.mem_map.mpr ⟨old, List.mem_of_getElem? listed, ?_⟩) fresh
        rw [← same, restored]
        rfl
  have pushed : (CAddrMan.push (info.restored 0 0)
      ({ am with nIdCount := order.length } : CAddrMan)).Directory :=
    restoring.directory.push missing
  constructor
  · refine pushed.congr ?_ ?_ ?_ ?_
    · simp [CAddrMan.push]
    · exact same_info
    · exact same_addr
    · exact same_random
  · rw [same_random, List.length_append, List.length_append, restoring.length]
    rfl
  · intro k old listed
    rw [same_info, same_new]
    rcases Nat.lt_or_ge k order.length with before | last
    · rw [List.getElem?_append_left before] at listed
      have different : (k : Int) ≠ order.length := by omega
      obtain ⟨pos, stored⟩ := restoring.entry k old listed
      exact ⟨pos, by rw [OrderedMap.find_insert_of_ne different, stored]⟩
    · rw [List.getElem?_append_right last, List.getElem?_singleton] at listed
      split_ifs at listed with at_end
      obtain rfl := Option.some.inj listed
      obtain rfl : k = order.length := by omega
      have none_hold : holders am.vvNew (order.length : Int) = ∅ := by
        ext nB
        simpa using unheld nB
      exact ⟨am.vRandom.length, by rw [OrderedMap.find_insert_self, none_hold]; rfl⟩

/-- The new entries are read. -/
theorem reads_readNew (crypto : Crypto) {infos : List CAddrInfo}
    (restoring : Restoring order am) (unheld : am.vvNew = fun _ => ∅)
    (distinct : ((order ++ infos).map fun info => info.toCNetAddr).Nodup)
    (untried : ∀ info ∈ infos, info.fInTried = false) :
    ∃ after, Reads (readNew crypto newBucketCount infos.length order.length am)
        (infos.flatMap CAddrInfo.write) after ∧
      Restoring (order ++ infos) after ∧ after.nKey = am.nKey ∧ after.nNew = am.nNew ∧
      after.nTried = am.nTried ∧ after.vvNew = am.vvNew ∧ after.vvTried = am.vvTried := by
  induction infos generalizing order am with
  | nil => exact ⟨am, Reads.pure am, by simpa using restoring, rfl, rfl, rfl, rfl, rfl⟩
  | cons info infos induction =>
      have fresh : info.toCNetAddr ∉ order.map fun info => info.toCNetAddr := by
        rw [List.map_append, List.nodup_append] at distinct
        exact fun member => distinct.2.2 _ member _ (by simp) rfl
      have loaded : ({ info.loaded with nRandomPos := am.vRandom.length } : CAddrInfo) =
          info.restored 0 am.vRandom.length := by
        rw [CAddrInfo.restored, untried info List.mem_cons_self]
        rfl
      let next := CAddrMan.setInfo order.length (info.restored 0 am.vRandom.length)
        { am with
          mapAddr := update am.mapAddr info.toCNetAddr (some (order.length : Int))
          vRandom := am.vRandom ++ [(order.length : Int)] }
      have pushed : Restoring (order ++ [info]) next :=
        restoring.push fresh (by simp [unheld]) rfl rfl rfl rfl
      rw [List.append_cons] at distinct ⊢
      obtain ⟨after, reads, restored, same⟩ := induction pushed unheld distinct
        fun later member => untried later (List.mem_cons_of_mem info member)
      refine ⟨after, ?_, restored, same⟩
      refine (info.reads_read).bind ?_
      rw [List.length_append] at reads
      have counted : ¬((newBucketCount : Int) ≠ newBucketCount) := not_not.mpr rfl
      simp only [if_neg counted, loaded]
      exact reads

/-- The ids that a tried bucket lists when the entries are restored in this order. -/
def triedOf (crypto : Crypto) (nKey : List UInt8) (order : List CAddrInfo)
    (nK : Fin triedBucketCount) : List Int :=
  (order.zipIdx.filter fun entry =>
    entry.1.fInTried ∧ nK = entry.1.getTriedBucket crypto nKey).map fun entry => (entry.2 : Int)

variable {nKey : List UInt8} {nK : Fin triedBucketCount}

theorem mem_triedOf {nId : Int} : nId ∈ triedOf crypto nKey order nK ↔
    ∃ (k : Nat) (info : CAddrInfo), nId = k ∧ order[k]? = some info ∧ info.fInTried = true ∧
      nK = info.getTriedBucket crypto nKey := by
  simp only [triedOf, List.mem_map, List.mem_filter, Prod.exists, List.mk_mem_zipIdx_iff_getElem?,
    decide_eq_true_eq]
  constructor
  · rintro ⟨info, k, ⟨listed, inTried, bucket⟩, rfl⟩
    exact ⟨k, info, rfl, listed, inTried, bucket⟩
  · rintro ⟨k, info, rfl, listed, inTried, bucket⟩
    exact ⟨info, k, ⟨listed, inTried, bucket⟩, rfl⟩

theorem nodup_triedOf : (triedOf crypto nKey order nK).Nodup := by
  have positions : (order.zipIdx.map Prod.snd).Nodup := by
    rw [List.zipIdx_map_snd]
    exact List.nodup_range'
  have ids (keep : CAddrInfo × Nat → Bool) :
      (((order.zipIdx.filter keep).map Prod.snd).map (Nat.cast : Nat → Int)).Nodup :=
    (positions.sublist (List.filter_sublist.map Prod.snd)).map Nat.cast_injective
  simp only [List.map_map] at ids
  exact ids _

theorem length_triedOf : (triedOf crypto nKey order nK).length =
    order.countP fun info => info.fInTried ∧ nK = info.getTriedBucket crypto nKey := by
  rw [triedOf, List.length_map, ← List.countP_eq_length_filter]
  conv_rhs => rw [← List.zipIdx_map_fst 0 order, List.countP_map]
  rfl

theorem triedOf_append_tried (inTried : info.fInTried = true) :
    triedOf crypto nKey (order ++ [info]) =
      update (triedOf crypto nKey order) (info.getTriedBucket crypto nKey)
        (triedOf crypto nKey order (info.getTriedBucket crypto nKey) ++ [(order.length : Int)]) := by
  funext nK
  by_cases own : nK = info.getTriedBucket crypto nKey
  · subst own
    simp [triedOf, List.zipIdx_append, inTried]
  · simp [triedOf, List.zipIdx_append, own]

theorem triedOf_of_untried (untried : ∀ info ∈ order, info.fInTried = false) :
    triedOf crypto nKey order = fun _ => [] := by
  funext nK
  rw [List.eq_nil_iff_forall_not_mem]
  intro nId member
  obtain ⟨k, info, -, listed, inTried, -⟩ := mem_triedOf.mp member
  rw [untried info (List.mem_of_getElem? listed)] at inTried
  exact Bool.false_ne_true inTried

/-- The tried entries are read. -/
theorem reads_readTried {infos : List CAddrInfo} (nLost : Int)
    (restoring : Restoring order am) (count : am.nIdCount = order.length)
    (unheld : am.vvNew = fun _ => ∅) (listed : am.vvTried = triedOf crypto am.nKey order)
    (distinct : ((order ++ infos).map fun info => info.toCNetAddr).Nodup)
    (tried : ∀ info ∈ infos, info.fInTried = true)
    (room : ∀ nK, (triedOf crypto am.nKey (order ++ infos) nK).length ≤ triedBucketSize) :
    ∃ after, Reads (readTried crypto infos.length nLost am) (infos.flatMap CAddrInfo.write)
        (nLost, after) ∧
      Restoring (order ++ infos) after ∧ after.nIdCount = (order ++ infos).length ∧
      after.vvTried = triedOf crypto am.nKey (order ++ infos) ∧ after.nKey = am.nKey ∧
      after.nNew = am.nNew ∧ after.nTried = am.nTried ∧ after.vvNew = am.vvNew := by
  induction infos generalizing order am with
  | nil =>
      rw [List.append_nil]
      exact ⟨am, Reads.pure _, restoring, count, listed, rfl, rfl, rfl, rfl⟩
  | cons info infos induction =>
      have inTried := tried info List.mem_cons_self
      have fresh : info.toCNetAddr ∉ order.map fun info => info.toCNetAddr := by
        rw [List.map_append, List.nodup_append] at distinct
        exact fun member => distinct.2.2 _ member _ (by simp) rfl
      rw [List.append_cons] at distinct room ⊢
      let nKBucket := info.getTriedBucket crypto am.nKey
      have fits : (am.vvTried nKBucket).length < triedBucketSize := by
        refine lt_of_lt_of_le ?_ (room nKBucket)
        have own : decide (info.fInTried = true ∧
            nKBucket = info.getTriedBucket crypto am.nKey) = true := by simp [inTried, nKBucket]
        rw [listed, length_triedOf, length_triedOf, List.countP_append, List.countP_append,
          List.countP_singleton, if_pos own]
        omega
      let next : CAddrMan :=
        { am with
          nIdCount := am.nIdCount + 1
          mapInfo := am.mapInfo.insert am.nIdCount (info.restored 0 am.vRandom.length)
          mapAddr := update am.mapAddr info.toCNetAddr (some am.nIdCount)
          vRandom := am.vRandom ++ [am.nIdCount]
          vvTried := update am.vvTried nKBucket (am.vvTried nKBucket ++ [am.nIdCount]) }
      have pushed : Restoring (order ++ [info]) next :=
        restoring.push fresh (by simp [unheld]) (by rw [← count]) (by rw [← count])
          (by rw [← count]) rfl
      have next_count : next.nIdCount = (order ++ [info]).length := by
        simp [next, count]
      have next_listed : next.vvTried = triedOf crypto am.nKey (order ++ [info]) := by
        rw [triedOf_append_tried inTried, ← listed, ← count]
      obtain ⟨after, reads, restored, same⟩ := induction pushed next_count unheld next_listed
        distinct (fun later member => tried later (List.mem_cons_of_mem info member)) room
      refine ⟨after, ?_, restored, same⟩
      refine (info.reads_read).bind ?_
      have loaded : ({ info.loaded with
          nRandomPos := am.vRandom.length, fInTried := true } : CAddrInfo) =
            info.restored 0 am.vRandom.length := by
        rw [CAddrInfo.restored, inTried]
        rfl
      have bucket : info.loaded.getTriedBucket crypto am.nKey = nKBucket := rfl
      simp only [bucket, if_pos fits, loaded]
      exact reads

/-- A restored entry enters a new bucket. -/
private theorem Restoring.hold (restoring : Restoring order am) {nB : Fin newBucketCount} {n : Int}
    (found : am.mapInfo.find n = some info) (fresh : n ∉ am.vvNew nB) :
    Restoring order { am.setInfo n { info with nRefCount := info.nRefCount + 1 } with
      vvNew := update am.vvNew nB (insert n (am.vvNew nB)) } := by
  constructor
  · refine (restoring.directory.setInfo found ?_ ?_).congr rfl rfl rfl rfl
    · rfl
    · rfl
  · exact restoring.length
  · intro k old listed
    obtain ⟨pos, stored⟩ := restoring.entry k old listed
    by_cases same : (k : Int) = n
    · subst same
      obtain rfl := Option.some.inj (found.symm.trans stored)
      refine ⟨pos, find_setInfo_self.trans ?_⟩
      rw [holders_insert, Finset.card_insert_of_notMem (mem_holders.not.mpr fresh)]
      simp [CAddrInfo.restored]
    · have same_holders : holders (update am.vvNew nB (insert n (am.vvNew nB))) k =
          holders am.vvNew k := by
        ext bucket
        simp [mem_update_insert_of_ne same]
      exact ⟨pos, (find_setInfo_of_ne same).trans (same_holders ▸ stored)⟩

/-- The numbers of a new bucket are read. -/
private theorem reads_readBucket {nB : Fin newBucketCount} {ns : List Int}
    (restoring : Restoring order am) (small : order.length ≤ 2 ^ 31) (nodup : ns.Nodup)
    (known : ∀ n ∈ ns, ∃ k : Nat, n = k ∧ k < order.length) (fresh : ∀ n ∈ ns, n ∉ am.vvNew nB)
    (limit : ∀ n ∈ ns, (holders am.vvNew n).card < newBucketsPerAddress) :
    ∃ after, Reads (readBucket newBucketCount nB ns.length am) (ns.flatMap writeInt) after ∧
      Restoring order after ∧ after.vvNew = update am.vvNew nB (am.vvNew nB ∪ ns.toFinset) ∧
      after.nIdCount = am.nIdCount ∧ after.nKey = am.nKey ∧ after.nNew = am.nNew ∧
      after.nTried = am.nTried ∧ after.vvTried = am.vvTried := by
  induction ns generalizing am with
  | nil => exact ⟨am, Reads.pure _, restoring, by simp, rfl, rfl, rfl, rfl, rfl⟩
  | cons n ns induction =>
      obtain ⟨unlisted, later_nodup⟩ := List.nodup_cons.mp nodup
      obtain ⟨k, rfl, within⟩ := known n List.mem_cons_self
      obtain ⟨pos, found⟩ := restoring.entry k _ (List.getElem?_eq_getElem within)
      have others (later : Int) (member : later ∈ ns) : later ≠ k := by
        rintro rfl
        exact unlisted member
      obtain ⟨after, reads, restored, held, same⟩ := induction
        (restoring.hold found (fresh k List.mem_cons_self)) later_nodup
        (fun later member => known later (List.mem_cons_of_mem _ member))
        (fun later member => by
          simpa [others later member] using fresh later (List.mem_cons_of_mem _ member))
        (fun later member => by
          have same_holders :
              holders (update am.vvNew nB (insert (k : Int) (am.vvNew nB))) later =
                holders am.vvNew later := by
            ext bucket
            simp [mem_update_insert_of_ne (others later member)]
          exact same_holders ▸ limit later (List.mem_cons_of_mem _ member))
      refine ⟨after, ?_, restored, ?_, same⟩
      · refine (reads_readInt (by omega) (by omega)).bind ?_
        simp only [found, Option.getD_some]
        rw [if_pos ⟨trivial, limit k List.mem_cons_self⟩]
        exact reads
      · rw [held]
        simp

/-- The ids of the new buckets before a bucket. -/
def heldBelow (lists : Fin newBucketCount → List Int) (b : Nat) (nB : Fin newBucketCount) :
    Finset Int :=
  if (nB : Nat) < b then (lists nB).toFinset else ∅

/-- The new buckets are read. -/
theorem reads_readBuckets {lists : Fin newBucketCount → List Int}
    (restoring : Restoring order am) (small : order.length ≤ 2 ^ 31)
    (nodup : ∀ nB, (lists nB).Nodup)
    (known : ∀ nB, ∀ n ∈ lists nB, ∃ k : Nat, n = k ∧ k < order.length)
    (limit : ∀ n, (holders (fun nB => (lists nB).toFinset) n).card ≤ newBucketsPerAddress)
    (sizes : ∀ nB, (lists nB).length ≤ newBucketSize) {left b : Nat}
    (total : b + left = newBucketCount) (below : am.vvNew = heldBelow lists b) :
    ∃ after, Reads (readBuckets newBucketCount left b am)
        (((List.finRange newBucketCount).drop b).flatMap fun nB =>
          writeInt (lists nB).length ++ (lists nB).flatMap writeInt) after ∧
      Restoring order after ∧ after.vvNew = (fun nB => (lists nB).toFinset) ∧
      after.nIdCount = am.nIdCount ∧ after.nKey = am.nKey ∧ after.nNew = am.nNew ∧
      after.nTried = am.nTried ∧ after.vvTried = am.vvTried := by
  induction left generalizing b am with
  | zero =>
      rw [Nat.add_zero] at total
      have all_held : am.vvNew = fun nB => (lists nB).toFinset := by
        rw [below]
        funext nB
        exact if_pos (total ▸ nB.isLt)
      rw [List.drop_of_length_le (by simp [total])]
      exact ⟨am, Reads.pure am, restoring, all_held, rfl, rfl, rfl, rfl, rfl⟩
  | succ left induction =>
      have inside : b < newBucketCount := by omega
      let nB : Fin newBucketCount := ⟨b, inside⟩
      have empty : am.vvNew nB = ∅ := by
        rw [below]
        exact if_neg (lt_irrefl b)
      have free (n : Int) (member : n ∈ lists nB) :
          (holders am.vvNew n).card < newBucketsPerAddress := by
        refine lt_of_lt_of_le (Int.ofNat_lt.mpr (Finset.card_lt_card ?_)) (limit n)
        refine (Finset.ssubset_iff_of_subset fun bucket holds => ?_).mpr ⟨nB, ?_, ?_⟩
        · rw [mem_holders, below, heldBelow] at holds
          split at holds
          · exact mem_holders.mpr holds
          · exact absurd holds (Finset.notMem_empty n)
        · exact mem_holders.mpr (List.mem_toFinset.mpr member)
        · rw [mem_holders, empty]
          exact Finset.notMem_empty n
      obtain ⟨next, bucket_reads, filled, held, next_same⟩ :=
        reads_readBucket restoring small (nodup nB) (known nB)
          (fun n _ => empty ▸ Finset.notMem_empty n) free
      have next_below : next.vvNew = heldBelow lists (b + 1) := by
        rw [held, empty, Finset.empty_union, below]
        funext bucket
        by_cases same : bucket = nB
        · subst same
          rw [update_self]
          exact (if_pos (Nat.lt_succ_self b)).symm
        · have different : (bucket : Nat) ≠ b := fun equal => same (Fin.ext equal)
          have step_iff : (bucket : Nat) < b + 1 ↔ (bucket : Nat) < b := by omega
          simp only [update_of_ne same, heldBelow, step_iff]
      obtain ⟨after, reads, restored, all_held, count, same⟩ :=
        induction filled (by omega) next_below
      refine ⟨after, ?_, restored, all_held, ?_⟩
      · have rest : (List.finRange newBucketCount).drop b =
            nB :: (List.finRange newBucketCount).drop (b + 1) := by
          rw [List.drop_eq_getElem_cons (by rwa [List.length_finRange]), List.getElem_finRange]
          rfl
        have size := sizes nB
        simp only [newBucketSize] at size
        rw [rest, List.flatMap_cons, List.append_assoc, readBuckets, dif_pos inside]
        refine (reads_readInt (by omega) (by omega)).bind ?_
        rw [Int.toNat_natCast]
        exact bucket_reads.bind reads
      · rw [count, same.1, same.2.1, same.2.2.1, same.2.2.2]
        exact next_same

end CAddrMan

end FooCoin
