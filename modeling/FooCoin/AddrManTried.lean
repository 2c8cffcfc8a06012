import FooCoin.AddrManSound

/-!
# Moves between "new" and "tried" buckets

`MakeTried` moves an entry from its new buckets to its tried bucket.  Where that bucket is full, one
of its entries goes back to a new bucket.
-/

namespace FooCoin

open Function

namespace CAddrMan

variable {crypto : Crypto} {chance : CallChance} {m : CAddrMan} {nId : Int} {info : CAddrInfo}
  {nKBucket : Fin triedBucketCount}

private theorem sum_length_update (vvTried : Fin triedBucketCount → List Int)
    (nKBucket : Fin triedBucketCount) (vTried : List Int) :
    ∑ nK, ((update vvTried nKBucket vTried nK).length : Int) =
      ∑ nK, ((vvTried nK).length : Int) + vTried.length - (vvTried nKBucket).length := by
  have lengths (nK : Fin triedBucketCount) : ((update vvTried nKBucket vTried nK).length : Int) =
      update (fun nK => ((vvTried nK).length : Int)) nKBucket vTried.length nK :=
    apply_update (fun _ values => (values.length : Int)) vvTried nKBucket vTried nK
  have removed := Finset.add_sum_erase Finset.univ (fun nK => ((vvTried nK).length : Int))
    (Finset.mem_univ nKBucket)
  simp only [lengths, Finset.sum_update_of_mem (Finset.mem_univ nKBucket),
    Finset.sdiff_singleton_eq_erase]
  omega

/-- A new entry moves to its tried bucket. -/
theorem Sound.enterTried (sound : m.Sound crypto none) (found : m.mapInfo.find nId = some info)
    (untried : info.fInTried = false) (connected : info.nLastSuccess ≠ 0) {vTried : List Int}
    (pushed : vTried.Perm (nId :: m.vvTried (info.getTriedBucket crypto m.nKey))) :
    ({ m with
      mapInfo := m.mapInfo.insert nId { info with nRefCount := 0, fInTried := true }
      nTried := m.nTried + 1
      vvTried := update m.vvTried (info.getTriedBucket crypto m.nKey) vTried
      nNew := m.nNew - 1
      vvNew := fun nB => (m.vvNew nB).erase nId } : CAddrMan).Sound crypto none := by
  have placed := sound.placed nId info found
  have outside (nK : Fin triedBucketCount) : nId ∉ m.vvTried nK := by
    simp [placed.tried, untried]
  have same_tried {other : Int} (different : other ≠ nId) (nK : Fin triedBucketCount) :
      other ∈ update m.vvTried (info.getTriedBucket crypto m.nKey) vTried nK ↔
        other ∈ m.vvTried nK := by
    by_cases own : nK = info.getTriedBucket crypto m.nKey
    · subst own
      simp [pushed.mem_iff, different]
    · simp [own]
  have directory : (m.setInfo nId { info with nRefCount := 0, fInTried := true }).Directory :=
    sound.directory.setInfo found rfl rfl
  have keep {other : Int} (stored : other ∈ m.mapInfo.keys) :
      other ∈ (m.mapInfo.insert nId { info with nRefCount := 0, fInTried := true }).keys :=
    Finset.mem_insert_of_mem stored
  have own_stored : nId ∈ m.mapInfo.keys := OrderedMap.mem_keys_iff.mpr ⟨info, found⟩
  constructor
  · exact directory.congr rfl rfl rfl rfl
  · intro other value stored
    by_cases same : other = nId
    · subst same
      obtain rfl := Option.some.inj (OrderedMap.find_insert_self.symm.trans stored)
      constructor
      · exact placed.lastTry
      · exact placed.lastSuccess
      · intro nK
        by_cases own : nK = info.getTriedBucket crypto m.nKey
        · subst own
          simp [pushed.mem_iff, CAddrInfo.getTriedBucket]
        · simp only [update_of_ne own, outside nK, false_iff, not_and]
          exact fun _ => own
      · simp [holders]
      · simpa using connected
    · rw [OrderedMap.find_insert_of_ne same] at stored
      exact (sound.placed other value stored).frame rfl (by simp [same]) (same_tried same) .rfl
  · simp
  · exact fun nB other member => keep (sound.newStored nB other (Finset.mem_of_mem_erase member))
  · intro nK other member
    by_cases same : other = nId
    · exact keep (same ▸ own_stored)
    · exact keep (sound.triedStored nK other ((same_tried same nK).mp member))
  · intro nK
    by_cases own : nK = info.getTriedBucket crypto m.nKey
    · subst own
      simpa [pushed.nodup_iff, outside] using sound.triedNodup _
    · simpa [own] using sound.triedNodup nK
  · simp only [sum_length_update, pushed.length_eq, List.length_cons, sound.nTried_eq]
    omega
  · have total := sound.total
    simp only
    omega

/-- A tried entry moves to a new bucket. -/
theorem Sound.evict (sound : m.Sound crypto none) (found : m.mapInfo.find nId = some info)
    {vTried : List Int} (listed : (m.vvTried nKBucket).Perm (nId :: vTried))
    (target : Fin newBucketCount) :
    ({ m with
      mapInfo := m.mapInfo.insert nId { info with fInTried := false, nRefCount := 1 }
      nTried := m.nTried - 1
      vvTried := update m.vvTried nKBucket vTried
      nNew := m.nNew + 1
      vvNew := update m.vvNew target (insert nId (m.vvNew target)) } : CAddrMan).Sound crypto
        none := by
  have placed := sound.placed nId info found
  have member : nId ∈ m.vvTried nKBucket := by simp [listed.mem_iff]
  obtain ⟨inTried, own_bucket⟩ := (placed.tried nKBucket).mp member
  have fresh : nId ∉ vTried := (List.nodup_cons.mp (listed.nodup (sound.triedNodup nKBucket))).1
  have unheld : holders m.vvNew nId = ∅ := by
    have limit := placed.limit
    have references := placed.references
    rw [if_pos inTried] at limit
    simp only [reduceCtorEq, if_false] at references
    exact Finset.card_eq_zero.mp (by omega)
  have same_tried {other : Int} (different : other ≠ nId) (nK : Fin triedBucketCount) :
      other ∈ update m.vvTried nKBucket vTried nK ↔ other ∈ m.vvTried nK := by
    by_cases own : nK = nKBucket
    · subst own
      simp [listed.mem_iff, different]
    · simp [own]
  have directory : (m.setInfo nId { info with fInTried := false, nRefCount := 1 }).Directory :=
    sound.directory.setInfo found rfl rfl
  have keep {other : Int} (stored : other ∈ m.mapInfo.keys) :
      other ∈ (m.mapInfo.insert nId { info with fInTried := false, nRefCount := 1 }).keys :=
    Finset.mem_insert_of_mem stored
  have own_stored : nId ∈ m.mapInfo.keys := OrderedMap.mem_keys_iff.mpr ⟨info, found⟩
  constructor
  · exact directory.congr rfl rfl rfl rfl
  · intro other value stored
    by_cases same : other = nId
    · subst same
      obtain rfl := Option.some.inj (OrderedMap.find_insert_self.symm.trans stored)
      constructor
      · exact placed.lastTry
      · exact placed.lastSuccess
      · intro nK
        by_cases own : nK = nKBucket
        · subst own
          simp [fresh]
        · simpa [own, placed.tried, inTried] using own_bucket ▸ own
      · simp [holders_insert, unheld]
      · simp [newBucketsPerAddress]
    · rw [OrderedMap.find_insert_of_ne same] at stored
      exact (sound.placed other value stored).frame rfl (mem_update_insert_of_ne same)
        (same_tried same) .rfl
  · simp
  · intro nB other holds
    by_cases same : other = nId
    · exact keep (same ▸ own_stored)
    · exact keep (sound.newStored nB other ((mem_update_insert_of_ne same nB).mp holds))
  · intro nK other holds
    by_cases same : other = nId
    · exact keep (same ▸ own_stored)
    · exact keep (sound.triedStored nK other ((same_tried same nK).mp holds))
  · intro nK
    by_cases own : nK = nKBucket
    · subst own
      simpa using (List.nodup_cons.mp (listed.nodup (sound.triedNodup nK))).2
    · simpa [own] using sound.triedNodup nK
  · simp only [sum_length_update, listed.length_eq, List.length_cons, sound.nTried_eq]
    omega
  · have total := sound.total
    simp only
    omega

/-- The loop shuffles the bucket and ends at a position in it, the one it starts with or another. -/
private theorem selectTriedLoop_eq (chance : CallChance) (left : Nat) {i : Nat} {vTried : List Int}
    {nOldest nOldestPos : Int} (stored : ∀ nId ∈ vTried, nId ∈ m.mapInfo.keys)
    (start : nOldest = -1 ∧ 0 < left ∧ i < vTried.length ∨
      nOldest ∈ m.mapInfo.keys ∧ 0 ≤ nOldestPos ∧ nOldestPos < vTried.length) :
    ∃ shuffled nPos, m.selectTriedLoop chance left i vTried nOldest nOldestPos =
        some (shuffled, nPos) ∧
      shuffled.Perm vTried ∧ 0 ≤ nPos ∧ nPos < vTried.length := by
  induction left generalizing i vTried nOldest nOldestPos with
  | zero =>
      obtain ⟨-, position⟩ := start.resolve_left fun looks => lt_irrefl 0 looks.2.1
      exact ⟨vTried, nOldestPos, rfl, .refl _, position⟩
  | succ left induction =>
      by_cases small : i < vTried.length
      · have drawn := chance.getRandInt_lt i (vTried.length - i) (by omega)
        have within : chance.getRandInt i (vTried.length - i) + i < vTried.length := by omega
        have swapped := List.set_set_perm within small
        have member : vTried[chance.getRandInt i (vTried.length - i) + i] ∈ m.mapInfo.keys :=
          stored _ (List.getElem_mem within)
        obtain ⟨older, compared, kept⟩ := older_eq (fun info => info.nLastSuccess.toInt)
          (start.imp And.left And.left) member
        have later : ∀ nId ∈ (vTried.set (chance.getRandInt i (vTried.length - i) + i)
            vTried[i]).set i vTried[chance.getRandInt i (vTried.length - i) + i],
            nId ∈ m.mapInfo.keys := fun nId listed => stored nId (swapped.mem_iff.mp listed)
        have next : (if older then vTried[chance.getRandInt i (vTried.length - i) + i]
              else nOldest) ∈ m.mapInfo.keys ∧
            0 ≤ (if older then ((chance.getRandInt i (vTried.length - i) + i : Nat) : Int)
              else nOldestPos) ∧
            (if older then ((chance.getRandInt i (vTried.length - i) + i : Nat) : Int)
              else nOldestPos) < vTried.length := by
          cases older with
          | true => exact ⟨member, Int.natCast_nonneg _, Int.ofNat_lt.mpr within⟩
          | false => exact start.resolve_left fun unset => kept rfl unset.1
        obtain ⟨shuffled, nPos, searched, perm, position⟩ :=
          induction (i := i + 1) later (.inr (by simpa using next))
        refine ⟨shuffled, nPos, ?_, perm.trans swapped, by simpa using position⟩
        simp only [selectTriedLoop, small, if_true, List.getElem?_eq_getElem, within,
          Option.bind_eq_bind, Option.bind_some, compared]
        cases older with
        | true => exact searched
        | false => exact searched
      · obtain ⟨-, position⟩ := start.resolve_left fun looks => small looks.2.2
        exact ⟨vTried, nOldestPos, by simp [selectTriedLoop, small], .refl _, position⟩

/-- A position of a shuffled bucket is selected. -/
theorem selectTried_eq (chance : CallChance) (nonempty : 0 < (m.vvTried nKBucket).length)
    (stored : ∀ nId ∈ m.vvTried nKBucket, nId ∈ m.mapInfo.keys) :
    ∃ shuffled nPos, m.selectTried chance nKBucket = some (shuffled, nPos) ∧
      shuffled.Perm (m.vvTried nKBucket) ∧ nPos.toNat < shuffled.length := by
  obtain ⟨shuffled, nPos, selected, perm, nonneg, small⟩ :=
    selectTriedLoop_eq chance triedEntriesInspectOnEvict stored
      (.inl ⟨rfl, by decide, nonempty⟩)
  exact ⟨shuffled, nPos, selected, perm, by rw [perm.length_eq]; omega⟩

/-- The entry is in no new bucket any more. -/
private theorem withdraw_eq (references : info.nRefCount = (holders m.vvNew nId).card) :
    m.withdraw nId info = ({ info with nRefCount := 0 },
      { m with
        mapInfo := m.mapInfo.insert nId { info with nRefCount := 0 }
        nNew := m.nNew - 1
        vvNew := fun nB => (m.vvNew nB).erase nId }) := by
  have none_left : info.nRefCount -
      ((Finset.univ.filter fun nB => nId ∈ m.vvNew nB).card : Int) = 0 :=
    sub_eq_zero.mpr references
  simp only [withdraw, none_left, CAddrMan.setInfo]

/-- Replacing an element of a list at a position. -/
theorem cons_set_perm {values : List Int} {pos : Nat} (small : pos < values.length)
    (new : Int) : (values[pos] :: values.set pos new).Perm (new :: values) :=
  (((List.set_perm_cons_eraseIdx small new).cons _).trans (.swap ..)).trans
    ((List.getElem_cons_eraseIdx_perm small).cons new)

/-- A new entry with a good connection is moved. -/
theorem Sound.makeTried (sound : m.Sound crypto none) (bounded : m.Bounded)
    (found : m.mapInfo.find nId = some info) {nOrigin : Fin newBucketCount}
    (member : nId ∈ m.vvNew nOrigin) (connected : info.nLastSuccess ≠ 0) (chance : CallChance) :
    ∃ after, m.makeTried crypto chance nId info nOrigin = some after ∧ after.Sound crypto none ∧
      after.Bounded := by
  have placed := sound.placed nId info found
  have untried := placed.not_tried_of_mem member
  have references : info.nRefCount = (holders m.vvNew nId).card := by
    simpa using placed.references
  have entered := sound.enterTried found untried connected (List.perm_append_singleton ..)
  have bucket_eq : ({ info with nRefCount := 0 } : CAddrInfo).getTriedBucket crypto m.nKey =
      info.getTriedBucket crypto m.nKey := rfl
  have erased_size (nB : Fin newBucketCount) :
      ((m.vvNew nB).erase nId).card ≤ newBucketSize :=
    Finset.card_erase_le.trans (bounded.newSize nB)
  rw [CAddrMan.makeTried, if_neg (not_not.mpr member), withdraw_eq references]
  simp only [ne_eq, not_true_eq_false, if_false, bucket_eq]
  by_cases room : (m.vvTried (info.getTriedBucket crypto m.nKey)).length < triedBucketSize
  · refine ⟨_, ?_, entered, ?_⟩
    · rw [if_pos room]
      simp [CAddrMan.setInfo]
    · constructor
      · exact erased_size
      · intro nK
        by_cases own : nK = info.getTriedBucket crypto m.nKey
        · subst own
          simpa using room
        · simpa [own] using bounded.triedSize nK
  · have stored (other : Int) (listed : other ∈ m.vvTried (info.getTriedBucket crypto m.nKey)) :
        other ∈ (m.mapInfo.insert nId { info with nRefCount := 0 }).keys :=
      Finset.mem_insert_of_mem (sound.triedStored _ other listed)
    have full : 0 < (m.vvTried (info.getTriedBucket crypto m.nKey)).length := by
      have positive : 0 < triedBucketSize := by decide
      omega
    have selects : ∃ shuffled nPos, CAddrMan.selectTried chance (info.getTriedBucket crypto m.nKey)
        { m with
          mapInfo := m.mapInfo.insert nId { info with nRefCount := 0 }
          nNew := m.nNew - 1
          vvNew := fun nB => (m.vvNew nB).erase nId } = some (shuffled, nPos) ∧
        shuffled.Perm (m.vvTried (info.getTriedBucket crypto m.nKey)) ∧
        nPos.toNat < shuffled.length := selectTried_eq chance full stored
    obtain ⟨shuffled, nPos, selected, perm, small⟩ := selects
    have old_listed := perm.mem_iff.mp (List.getElem_mem small)
    obtain ⟨infoOld, old_found⟩ :=
      OrderedMap.mem_keys_iff.mp (sound.triedStored _ _ old_listed)
    have different : shuffled[nPos.toNat] ≠ nId := by
      intro same
      have own := (placed.tried _).mp (same ▸ old_listed)
      simp [untried] at own
    have old_found' : (m.mapInfo.insert nId
        { info with nRefCount := 0, fInTried := true }).find shuffled[nPos.toNat] =
          some infoOld := by
      rw [OrderedMap.find_insert_of_ne different, old_found]
    have listed : (update m.vvTried (info.getTriedBucket crypto m.nKey)
        (m.vvTried (info.getTriedBucket crypto m.nKey) ++ [nId])
          (info.getTriedBucket crypto m.nKey)).Perm
        (shuffled[nPos.toNat] :: shuffled.set nPos.toNat nId) := by
      rw [update_self]
      exact (List.perm_append_singleton ..).trans
        ((perm.symm.cons nId).trans (cons_set_perm small nId).symm)
    have evicted := entered.evict old_found' listed
      (if ((m.vvNew (infoOld.getNewBucket crypto m.nKey infoOld.source)).erase nId).card <
          newBucketSize then infoOld.getNewBucket crypto m.nKey infoOld.source else nOrigin)
    refine ⟨_, ?_, evicted, ?_⟩
    · rw [if_neg room, selected]
      simp only [Option.bind_eq_bind, Option.bind_some, List.getElem?_eq_getElem small,
        OrderedMap.find_insert_of_ne different, old_found, CAddrMan.setInfo, Option.pure_def,
        OrderedMap.insert_comm _ different, OrderedMap.insert_insert, update_idem,
        add_sub_cancel_right, sub_add_cancel]
      rfl
    · constructor
      · refine card_update_insert_le erased_size ?_
        split_ifs with fits
        · exact fits
        · exact (Finset.card_erase_lt_of_mem member).trans_le (bounded.newSize nOrigin)
      · intro nK
        by_cases own : nK = info.getTriedBucket crypto m.nKey
        · subst own
          simpa [perm.length_eq] using bounded.triedSize _
        · simpa [own] using bounded.triedSize nK

end CAddrMan

end FooCoin
