import Workhorse.Dashboard.Listing

/-!
# Pages of the task list

The pages of a fixed listing are its successive pieces. A step forward or back goes from one piece to the one beside
it, so that following the next cursor is an induction on the pieces that are left.
-/

namespace Workhorse

variable {t : ListedTask} {cursor : Option Cursor}

/-! ## The listing -/

namespace DashboardDb

variable {db : DashboardDb} {q : TaskQuery}

theorem nodup_viewRows (db : DashboardDb) : (db.viewRows.map (·.taskId)).Nodup := by
  have h := db.one_row
  simp only [viewRows, List.map_append, List.map_map]
  exact h

theorem taskRow_id {r : ViewRow} (h : db.taskRow q r = some t) : t.id = r.taskId := by
  unfold taskRow at h
  split at h
  · cases h
  · split at h
    · cases h
      rfl
    · cases h

theorem taskRows_ids (db : DashboardDb) (q : TaskQuery) :
    ((db.taskRows q).map (·.id)).Sublist (db.viewRows.map (·.taskId)) := by
  unfold taskRows
  induction db.viewRows with
  | nil => simp
  | cons r rows ih =>
    cases hrow : db.taskRow q r with
    | none =>
      rw [List.filterMap_cons_none hrow]
      exact ih.cons _
    | some t =>
      rw [List.filterMap_cons_some hrow, List.map_cons, List.map_cons, taskRow_id hrow]
      exact ih.cons_cons _

theorem nodup_filtered (db : DashboardDb) (q : TaskQuery) : ((db.filtered q).map (·.id)).Nodup :=
  ((List.filter_sublist.map _).trans (db.taskRows_ids q)).nodup db.nodup_viewRows

def listing (db : DashboardDb) (q : TaskQuery) : List ListedTask := Keyset.sortDesc q.sort.rowKey (db.filtered q)

theorem listing_perm (db : DashboardDb) (q : TaskQuery) : (db.listing q).Perm (db.filtered q) :=
  List.perm_insertionSort _ _

theorem TaskSort.id_of_rowKey_eq {sort : TaskSort} {s t : ListedTask} (h : sort.rowKey s = sort.rowKey t) :
    s.id = t.id := by
  cases sort <;> simp [TaskSort.rowKey, TaskSort.key] at h <;> simp [h]

theorem descending_listing (db : DashboardDb) (q : TaskQuery) : Keyset.Descending q.sort.rowKey (db.listing q) := by
  refine Keyset.descending_sortDesc ?_
  have hids := List.pairwise_map.mp (db.nodup_filtered q)
  exact hids.imp fun hne heq => hne (TaskSort.id_of_rowKey_eq heq)

end DashboardDb

/-! ## One page -/

section Page

variable {sort : TaskSort} {listing rows before after : List ListedTask} {size : Nat} {bound : Option RowKey}

theorem pageOf_next (hd : Keyset.Descending sort.rowKey listing) (hperm : listing.Perm rows)
    (hpast : listing.filter (pastCursor .next sort bound) = after) :
    pageOf .next sort size bound rows =
      { tasks := after.take size
        nextCursor := if size < after.length then (after.take size).getLast?.map ListedTask.cursor else none
        previousCursor := if bound.isSome then (after.take size).head?.map ListedTask.cursor else none } := by
  have hafter : Keyset.Descending sort.rowKey after := hpast ▸ hd.sublist List.filter_sublist
  have hrows : after.Perm (rows.filter (pastCursor .next sort bound)) := hpast ▸ hperm.filter _
  have htake (n : Nat) : Keyset.Descending sort.rowKey (after.take n) := hafter.sublist (List.take_sublist n after)
  simp only [pageOf, orderBy, Keyset.sortDesc_eq hafter hrows, Keyset.sortDesc_eq (htake _) (List.Perm.refl _),
    List.take_take, Nat.min_eq_left (Nat.le_succ size), Keyset.sortAsc_eq (htake size) (List.Perm.refl _),
    List.head?_reverse, List.length_take]
  have hmore : size < min (size + 1) after.length ↔ size < after.length := by omega
  simp [hmore]

theorem pageOf_previous (hd : Keyset.Descending sort.rowKey listing) (hperm : listing.Perm rows)
    (hpast : listing.filter (pastCursor .previous sort bound) = before) (hbound : bound.isSome) :
    pageOf .previous sort size bound rows =
      { tasks := (before.reverse.take size).reverse
        nextCursor := (before.reverse.take size).reverse.getLast?.map ListedTask.cursor
        previousCursor :=
          if size < before.length then (before.reverse.take size).reverse.head?.map ListedTask.cursor else none } := by
  have hbefore : Keyset.Descending sort.rowKey before := hpast ▸ hd.sublist List.filter_sublist
  have hrows : before.Perm (rows.filter (pastCursor .previous sort bound)) := hpast ▸ hperm.filter _
  have htake (n : Nat) : Keyset.Descending sort.rowKey (before.reverse.take n).reverse := by
    rw [List.reverse_take, List.reverse_reverse]
    exact hbefore.sublist (List.drop_sublist _ before)
  have hself (n : Nat) : (before.reverse.take n).reverse.Perm (before.reverse.take n) := List.reverse_perm _
  simp only [pageOf, orderBy, Keyset.sortAsc_eq hbefore hrows, Keyset.sortAsc_eq (htake _) (hself _),
    Keyset.sortDesc_eq (htake _) (hself _), List.reverse_reverse, List.take_take,
    Nat.min_eq_left (Nat.le_succ size), List.length_take, List.length_reverse, List.getLast?_reverse]
  have hmore : size < min (size + 1) before.length ↔ size < before.length := by omega
  simp [hmore, hbound]

end Page

/-! ## Cursors -/

/-- The year of an instant is written without an era, so only these are read back. -/
def CommonEra (t : Time) : Prop := 1 ≤ (Calendar.civil (t / oneDay)).year

instance (t : Time) : Decidable (CommonEra t) := inferInstanceAs (Decidable (_ ≤ _))

theorem read_toChar {t : Time} (h : CommonEra t) : (toChar t).read = .ok t := by
  have hyear : ¬(Calendar.civil (t / oneDay)).year ≤ 0 := by
    unfold CommonEra at h
    omega
  have hdate : (⟨((toChar t).year : Int), (toChar t).month, (toChar t).day⟩ : Calendar.Date) =
      Calendar.civil (t / oneDay) := by
    simp only [toChar, if_neg hyear]
    rw [Int.toNat_of_nonneg (by omega)]
  rw [Stamp.read]
  simp only [hdate, Calendar.dayNumber_civil]
  rw [if_pos trivial]
  exact congrArg Except.ok (Int.ediv_mul_add_emod t oneDay)

theorem lt_of_read {t t' : Time} (h : ¬CommonEra t) (hread : (toChar t).read = .ok t') : t < t' := by
  have hyear : ((toChar t).year : Int) = 1 - (Calendar.civil (t / oneDay)).year := by
    unfold CommonEra at h
    simp only [toChar]
    rw [if_pos (by omega), Int.toNat_of_nonneg (by omega)]
  simp only [Stamp.read] at hread
  split at hread
  · rename_i hdate
    obtain rfl := Except.ok.inj hread
    generalize Calendar.Date.dayNumber _ = day at hdate
    -- The day that is read is of year 1 or later.
    have hlater : -719162 ≤ day := by
      rw [← Calendar.one_le_civil_year, hdate]
      unfold CommonEra at h
      change (1 : Int) ≤ (toChar t).year
      omega
    have hearlier : Int.ediv t oneDay < -719162 := not_le.mp ((Calendar.one_le_civil_year _).not.mp h)
    have hpos : (0 : Int) < oneDay := by decide
    calc t < (t / oneDay + 1) * oneDay := Int.lt_ediv_add_one_mul_self t hpos
      _ ≤ day * oneDay := by
        exact Int.mul_le_mul_of_nonneg_right (Int.add_one_le_of_lt (hearlier.trans_le hlater)) hpos.le
      _ ≤ day * oneDay + (toChar t).timeOfDay := by
        have := Int.emod_nonneg t hpos.ne'
        simpa [toChar] using this
  · cases hread

theorem bound_cursor {sort : TaskSort} (h : CommonEra t.updatedAt) : t.cursor.bound sort = .ok (sort.rowKey t) := by
  simp [Cursor.bound, ListedTask.cursor, read_toChar h, TaskSort.rowKey, pure, Except.pure, bind, Except.bind]

/-- A key of an earlier era is read back as a greater one. -/
theorem rowKey_lt_bound {sort : TaskSort} {k : RowKey} (h : ¬CommonEra t.updatedAt)
    (hk : t.cursor.bound sort = .ok k) : sort.rowKey t < k := by
  cases hread : (toChar t.updatedAt).read with
  | error e => simp [Cursor.bound, ListedTask.cursor, hread, bind, Except.bind] at hk
  | ok t' =>
    have hlt := lt_of_read h hread
    simp only [Cursor.bound, ListedTask.cursor, hread, bind, Except.bind, pure, Except.pure, Except.ok.injEq] at hk
    rw [← hk]
    cases sort <;> simp [TaskSort.rowKey, TaskSort.key, Prod.Lex.toLex_lt_toLex, hlt]

theorem rowKey_le_bound {sort : TaskSort} {k : RowKey} (hk : t.cursor.bound sort = .ok k) : sort.rowKey t ≤ k := by
  by_cases h : CommonEra t.updatedAt
  · rw [bound_cursor h] at hk
    exact (Except.ok.inj hk).le
  · exact (rowKey_lt_bound h hk).le

/-! ## From page to page -/

def listedPage (listing : List ListedTask) (size i : Nat) : TaskPage where
  tasks := Keyset.chunk listing size i
  nextCursor :=
    if (i + 1) * size < listing.length then (Keyset.chunk listing size i).getLast?.map ListedTask.cursor else none
  previousCursor := if i = 0 then none else (Keyset.chunk listing size i).head?.map ListedTask.cursor

section Walk

variable {db : DashboardDb} {q : TaskQuery} {size i : Nat}

theorem dashboardTasksCursor_none (hsize : q.pageSize = size) (hmax : size < 2147483647) (direction : Direction) :
    dashboardTasksCursor db q direction none = .ok (pageOf direction q.sort size none (db.filtered q)) := by
  have hover : ¬(2147483647 < q.pageSize + 1) := by omega
  have hneg : ¬q.pageSize < 0 := by omega
  rw [dashboardTasksCursor, if_neg hover, if_neg hneg, hsize]
  rfl

theorem dashboardTasksCursor_some (hsize : q.pageSize = size) (hmax : size < 2147483647) (direction : Direction)
    {c : Cursor} {k : RowKey} (hk : c.bound q.sort = .ok k) :
    dashboardTasksCursor db q direction (some c) = .ok (pageOf direction q.sort size (some k) (db.filtered q)) := by
  have hover : ¬(2147483647 < q.pageSize + 1) := by omega
  have hneg : ¬q.pageSize < 0 := by omega
  rw [dashboardTasksCursor, if_neg hover, if_neg hneg, hsize]
  simp [hk, pure, Except.pure, bind, Except.bind]

theorem bound_of_page {direction : Direction} {c : Cursor} {page : TaskPage}
    (h : dashboardTasksCursor db q direction (some c) = .ok page) : ∃ k, c.bound q.sort = .ok k := by
  unfold dashboardTasksCursor at h
  split at h
  · cases h
  · split at h
    · cases h
    · cases hk : c.bound q.sort with
      | error e => simp [hk, bind, Except.bind] at h
      | ok k => exact ⟨k, rfl⟩

theorem first_page (hsize : q.pageSize = size) (hmax : size < 2147483647) :
    dashboardTasksCursor db q .next none = .ok (listedPage (db.listing q) size 0) := by
  have hall : (db.listing q).filter (pastCursor .next q.sort none) = db.listing q :=
    List.filter_eq_self.mpr fun t _ => rfl
  rw [dashboardTasksCursor_none hsize hmax, pageOf_next (db.descending_listing q) (db.listing_perm q) hall]
  simp [listedPage, Keyset.chunk]

theorem chunk_getLast? {listing : List ListedTask} (hpos : 1 ≤ size) (h : (i + 1) * size < listing.length) :
    (Keyset.chunk listing size i).getLast? = listing[(i + 1) * size - 1]? := by
  rw [Nat.succ_mul] at h ⊢
  rw [List.getLast?_eq_getElem?, Keyset.chunk, List.length_take, List.length_drop,
    Nat.min_eq_left (by omega), List.getElem?_take_of_lt (by omega), List.getElem?_drop]
  congr 1
  omega

theorem chunk_head? {listing : List ListedTask} (hpos : 1 ≤ size) :
    (Keyset.chunk listing size i).head? = listing[i * size]? := by
  rw [List.head?_eq_getElem?, Keyset.chunk, List.getElem?_take_of_lt (by omega), List.getElem?_drop, add_zero]

theorem split_at {listing : List ListedTask} {n : Nat} (h : n < listing.length) :
    listing = listing.take n ++ listing[n] :: listing.drop (n + 1) := by
  rw [List.getElem_cons_drop, List.take_append_drop]

/-- The cursors that are printed for the two rows at the end of a page and at the start of the next one, read
back: the first row is of year 1 or later, and the second is still read as one after the first. -/
def ReadsBack (sort : TaskSort) (last first : ListedTask) : Prop :=
  CommonEra last.updatedAt ∧ ∃ k, first.cursor.bound sort = .ok k ∧ k < sort.rowKey last

theorem next_page (hsize : q.pageSize = size) (hpos : 1 ≤ size) (hmax : size < 2147483647)
    (hi : (i + 1) * size < (db.listing q).length) {last : ListedTask}
    (hlast : (db.listing q)[(i + 1) * size - 1]? = some last) (hera : CommonEra last.updatedAt) :
    dashboardTasksCursor db q .next (some last.cursor) = .ok (listedPage (db.listing q) size (i + 1)) := by
  have hbefore : 1 ≤ (i + 1) * size := Nat.le_trans hpos (Nat.le_mul_of_pos_left size (Nat.succ_pos i))
  obtain ⟨hlt, hlast⟩ := List.getElem?_eq_some_iff.mp hlast
  have hsplit := split_at hlt
  have hd := db.descending_listing q
  rw [hlast, Nat.sub_add_cancel hbefore] at hsplit
  have hpast : (db.listing q).filter (pastCursor .next q.sort (some (q.sort.rowKey last))) =
      (db.listing q).drop ((i + 1) * size) := by
    rw [hsplit] at hd
    conv_lhs => rw [hsplit]
    exact Keyset.filter_lt hd
  rw [dashboardTasksCursor_some hsize hmax .next (bound_cursor hera),
    pageOf_next (db.descending_listing q) (db.listing_perm q) hpast]
  have hmore : size < (db.listing q).length - (i + 1) * size ↔ (i + 1 + 1) * size < (db.listing q).length := by
    rw [Nat.succ_mul (i + 1)]
    omega
  simp [listedPage, Keyset.chunk, hmore]

theorem listedPage_nextCursor (hpos : 1 ≤ size) (hi : (i + 1) * size < (db.listing q).length) {last : ListedTask}
    (hlast : (db.listing q)[(i + 1) * size - 1]? = some last) :
    (listedPage (db.listing q) size i).nextCursor = some last.cursor := by
  simp [listedPage, hi, chunk_getLast? hpos hi, hlast]

theorem listedPage_previousCursor (hpos : 1 ≤ size) {first : ListedTask}
    (hfirst : (db.listing q)[(i + 1) * size]? = some first) :
    (listedPage (db.listing q) size (i + 1)).previousCursor = some first.cursor := by
  simp [listedPage, chunk_head? hpos, hfirst]

/-- The rows before a row are not below the last of them. -/
theorem le_of_mem_take {n : Nat} {last t : ListedTask} (hlast : (db.listing q)[n - 1]? = some last)
    (ht : t ∈ (db.listing q).take n) : q.sort.rowKey last ≤ q.sort.rowKey t := by
  obtain ⟨j, hj, rfl⟩ := List.mem_iff_getElem.mp ht
  rw [List.length_take] at hj
  rw [List.getElem_take]
  obtain ⟨hlt, rfl⟩ := List.getElem?_eq_some_iff.mp hlast
  rcases Nat.lt_or_ge j (n - 1) with hj' | hj'
  · exact (List.pairwise_iff_getElem.mp (db.descending_listing q) j (n - 1) _ _ hj').le
  · have : j = n - 1 := by omega
    simp [this]

theorem previous_page (hsize : q.pageSize = size) (hpos : 1 ≤ size) (hmax : size < 2147483647)
    {last first : ListedTask} (hlast : (db.listing q)[(i + 1) * size - 1]? = some last)
    (hfirst : (db.listing q)[(i + 1) * size]? = some first) (hreads : ReadsBack q.sort last first) :
    dashboardTasksCursor db q .previous (some first.cursor) = .ok (listedPage (db.listing q) size i) := by
  obtain ⟨-, k, hk, hbelow⟩ := hreads
  obtain ⟨hi, hfirst⟩ := List.getElem?_eq_some_iff.mp hfirst
  have hsplit := split_at hi
  have hd := db.descending_listing q
  rw [hfirst] at hsplit
  have hpast : (db.listing q).filter (pastCursor .previous q.sort (some k)) =
      (db.listing q).take ((i + 1) * size) := by
    rw [hsplit] at hd
    conv_lhs => rw [hsplit]
    exact Keyset.filter_gt hd (rowKey_le_bound hk) fun t ht => hbelow.trans_le (le_of_mem_take hlast ht)
  have hlength : ((db.listing q).take ((i + 1) * size)).length = (i + 1) * size := by
    rw [List.length_take]
    omega
  have htasks : (((db.listing q).take ((i + 1) * size)).reverse.take size).reverse =
      Keyset.chunk (db.listing q) size i := by
    rw [List.reverse_take, List.reverse_reverse, List.length_reverse, hlength, Nat.succ_mul, Nat.add_sub_cancel,
      List.drop_take, Keyset.chunk, Nat.add_sub_cancel_left]
  have hmore : size < (i + 1) * size ↔ i ≠ 0 := by
    cases i with
    | zero => simp
    | succ i =>
      rw [Nat.succ_mul, Nat.succ_mul]
      omega
  rw [dashboardTasksCursor_some hsize hmax .previous hk,
    pageOf_previous (db.descending_listing q) (db.listing_perm q) hpast rfl, htasks, hlength]
  simp [listedPage, hi, hmore]

def pageCount (listing : List ListedTask) (size : Nat) : Nat := (listing.length - 1) / size + 1

theorem lt_pageCount {listing : List ListedTask} (hpos : 1 ≤ size) :
    i + 1 < pageCount listing size ↔ (i + 1) * size < listing.length := by
  have hsize : 1 ≤ (i + 1) * size := Nat.le_trans hpos (Nat.le_mul_of_pos_left size (Nat.succ_pos i))
  rw [pageCount, Nat.add_lt_add_iff_right, Nat.lt_iff_add_one_le, Nat.le_div_iff_mul_le hpos]
  omega

/-- The condition on every two rows between which a page ends. -/
def Readable (db : DashboardDb) (q : TaskQuery) (size : Nat) : Prop := ∀ i last first,
  (db.listing q)[(i + 1) * size - 1]? = some last → (db.listing q)[(i + 1) * size]? = some first →
    ReadsBack q.sort last first

theorem exists_boundary (h : (i + 1) * size < (db.listing q).length) : ∃ last first,
    (db.listing q)[(i + 1) * size - 1]? = some last ∧ (db.listing q)[(i + 1) * size]? = some first :=
  ⟨_, _, List.getElem?_eq_getElem (by omega), List.getElem?_eq_getElem h⟩

theorem followNext_from (hsize : q.pageSize = size) (hpos : 1 ≤ size) (hmax : size < 2147483647)
    (hreads : Readable db q size) {left fuel : Nat}
    (hleft : i + left + 1 = pageCount (db.listing q) size) (hfuel : left < fuel)
    (hpage : dashboardTasksCursor db q .next cursor = .ok (listedPage (db.listing q) size i)) :
    followNext db q fuel cursor = .ok ((List.range' i (left + 1)).map (listedPage (db.listing q) size)) := by
  -- On the pages that are left after this one.
  induction left generalizing i fuel cursor with
  | zero =>
    have hlast : ¬(i + 1) * size < (db.listing q).length := by
      rw [← lt_pageCount hpos]
      omega
    obtain ⟨fuel, rfl⟩ := Nat.exists_eq_add_of_lt hfuel
    simp [followNext, hpage, listedPage, hlast, pure, Except.pure, bind, Except.bind]
  | succ left ih =>
    have hmore : (i + 1) * size < (db.listing q).length := by
      rw [← lt_pageCount hpos]
      omega
    obtain ⟨last, first, hlast, hfirst⟩ := exists_boundary hmore
    have hc := listedPage_nextCursor hpos hmore hlast
    have hnext := next_page hsize hpos hmax hmore hlast (hreads i last first hlast hfirst).1
    obtain ⟨fuel, rfl⟩ := Nat.exists_eq_succ_of_ne_zero (Nat.ne_of_gt (Nat.lt_of_le_of_lt (Nat.zero_le _) hfuel))
    have hrest := ih (by omega) (Nat.lt_of_succ_lt_succ hfuel) hnext
    simp [followNext, hpage, hc, hrest, List.range'_succ, pure, Except.pure, bind, Except.bind]

theorem followNext_cases {fuel : Nat} {pages : List TaskPage}
    (h : followNext db q fuel cursor = .ok pages) : ∃ fuel' page, fuel = fuel' + 1 ∧
      dashboardTasksCursor db q .next cursor = .ok page ∧ ((page.nextCursor = none ∧ pages = [page]) ∨
        ∃ c rest, page.nextCursor = some c ∧ followNext db q fuel' (some c) = .ok rest ∧ pages = page :: rest) := by
  cases fuel with
  | zero => cases h
  | succ fuel =>
    cases hpage : dashboardTasksCursor db q .next cursor with
    | error e => simp [followNext, hpage, bind, Except.bind] at h
    | ok page =>
      refine ⟨fuel, page, rfl, rfl, ?_⟩
      cases hc : page.nextCursor with
      | none =>
        simp only [followNext, hpage, hc, bind, Except.bind, pure, Except.pure, Except.ok.injEq] at h
        exact .inl ⟨rfl, h.symm⟩
      | some c =>
        cases hrest : followNext db q fuel (some c) with
        | error e => simp [followNext, hpage, hc, hrest, bind, Except.bind] at h
        | ok rest =>
          simp only [followNext, hpage, hc, hrest, bind, Except.bind, pure, Except.pure, Except.ok.injEq] at h
          exact .inr ⟨c, rest, rfl, hrest, h.symm⟩

/-- From the cursor of a row of an earlier era, the next page starts with that row again or with one before it. -/
theorem next_page_of_earlier (hsize : q.pageSize = size) (hpos : 1 ≤ size) (hmax : size < 2147483647)
    {last : ListedTask} (hlast : last ∈ db.listing q) (hera : ¬CommonEra last.updatedAt) {page : TaskPage}
    (h : dashboardTasksCursor db q .next (some last.cursor) = .ok page) :
    ∃ t ∈ page.tasks, q.sort.rowKey last ≤ q.sort.rowKey t := by
  obtain ⟨k, hk⟩ := bound_of_page h
  rw [dashboardTasksCursor_some hsize hmax .next hk,
    pageOf_next (db.descending_listing q) (db.listing_perm q) rfl] at h
  cases h
  have hd := (db.descending_listing q).sublist
    (List.filter_sublist (p := pastCursor .next q.sort (some k)) (l := db.listing q))
  have hmem : last ∈ (db.listing q).filter (pastCursor .next q.sort (some k)) :=
    List.mem_filter.mpr ⟨hlast, decide_eq_true (rowKey_lt_bound hera hk)⟩
  generalize (db.listing q).filter (pastCursor .next q.sort (some k)) = after at hd hmem ⊢
  cases after with
  | nil => cases hmem
  | cons t after =>
    obtain ⟨size, rfl⟩ := Nat.exists_eq_add_of_le' hpos
    refine ⟨t, by simp, ?_⟩
    rcases List.mem_cons.mp hmem with rfl | hmem
    · exact le_rfl
    · exact ((List.pairwise_cons.mp hd).1 last hmem).le

theorem lt_of_mem_drop {n : Nat} (hn : 1 ≤ n) {last t : ListedTask} (hlast : (db.listing q)[n - 1]? = some last)
    (ht : t ∈ (db.listing q).drop n) : q.sort.rowKey t < q.sort.rowKey last := by
  obtain ⟨j, hj, rfl⟩ := List.mem_iff_getElem.mp ht
  rw [List.length_drop] at hj
  rw [List.getElem_drop]
  obtain ⟨hlt, rfl⟩ := List.getElem?_eq_some_iff.mp hlast
  exact List.pairwise_iff_getElem.mp (db.descending_listing q) (n - 1) (n + j) _ _ (by omega)

/-- A walk over the listing goes from each of its pieces to the next, and so reads back each next cursor. -/
theorem pages_of_follow (hsize : q.pageSize = size) (hpos : 1 ≤ size) (hmax : size < 2147483647) {fuel : Nat}
    {pages : List TaskPage} (h : followNext db q fuel cursor = .ok pages)
    (hpage : dashboardTasksCursor db q .next cursor = .ok (listedPage (db.listing q) size i))
    (htasks : pages.flatMap (·.tasks) = (db.listing q).drop (i * size)) :
    pages[0]? = some (listedPage (db.listing q) size i) ∧ ∀ m, (i + m + 1) * size < (db.listing q).length →
      (∀ last, (db.listing q)[(i + m + 1) * size - 1]? = some last → CommonEra last.updatedAt) ∧
      pages[m]? = some (listedPage (db.listing q) size (i + m)) ∧
      pages[m + 1]? = some (listedPage (db.listing q) size (i + m + 1)) := by
  induction fuel generalizing cursor pages i with
  | zero => cases h
  | succ fuel ih =>
    obtain ⟨_, page, hfuel, hpage', hpages⟩ := followNext_cases h
    cases hfuel
    obtain rfl := Except.ok.inj (hpage.symm.trans hpage')
    have hcursor {m : Nat} (hm : (i + m + 1) * size < (db.listing q).length) : (i + 1) * size < (db.listing q).length :=
      lt_of_le_of_lt (Nat.mul_le_mul_right size (by omega)) hm
    rcases hpages with ⟨hnone, rfl⟩ | ⟨c, rest, hc, hrest, rfl⟩
    · refine ⟨rfl, fun m hm => ?_⟩
      obtain ⟨last, first, hlast, -⟩ := exists_boundary (hcursor hm)
      rw [listedPage_nextCursor hpos (hcursor hm) hlast] at hnone
      cases hnone
    · refine ⟨rfl, ?_⟩
      by_cases hmore : (i + 1) * size < (db.listing q).length
      · obtain ⟨last, first, hlast, -⟩ := exists_boundary hmore
        rw [listedPage_nextCursor hpos hmore hlast] at hc
        obtain rfl := Option.some.inj hc
        have hafter : rest.flatMap (·.tasks) = (db.listing q).drop ((i + 1) * size) := by
          rw [List.flatMap_cons, ← List.take_append_drop size ((db.listing q).drop (i * size))] at htasks
          rw [List.append_cancel_left htasks, List.drop_drop, Nat.succ_mul]
        obtain ⟨_, next, -, hnext, hhead⟩ := followNext_cases hrest
        have hera : CommonEra last.updatedAt := by
          by_contra hera
          obtain ⟨t, ht, hle⟩ := next_page_of_earlier hsize hpos hmax (List.mem_of_getElem? hlast) hera hnext
          have hmem : t ∈ rest.flatMap (·.tasks) := by
            rcases hhead with ⟨-, rfl⟩ | ⟨_, _, -, -, rfl⟩ <;> simp [ht]
          rw [hafter] at hmem
          exact absurd (lt_of_mem_drop (Nat.le_trans hpos (Nat.le_mul_of_pos_left size (Nat.succ_pos i))) hlast hmem)
            (not_lt.mpr hle)
        obtain ⟨hfirst, hlater⟩ := ih hrest (next_page hsize hpos hmax hmore hlast hera) hafter
        intro m hm
        cases m with
        | zero =>
          refine ⟨fun last' hlast' => ?_, rfl, hfirst⟩
          rwa [← Option.some.inj (hlast.symm.trans hlast')]
        | succ m =>
          have := hlater m (by rwa [Nat.add_right_comm i 1 m])
          rwa [Nat.add_right_comm i 1 m] at this
      · exact fun m hm => absurd (hcursor hm) hmore

/-- A previous cursor that gives the page before is read back as a key below that of the page's last row. -/
theorem bound_of_previous (hsize : q.pageSize = size) (hpos : 1 ≤ size) (hmax : size < 2147483647)
    {last first : ListedTask} (hlast : (db.listing q)[(i + 1) * size - 1]? = some last)
    (hi : (i + 1) * size < (db.listing q).length)
    (hback : dashboardTasksCursor db q .previous (some first.cursor) = .ok (listedPage (db.listing q) size i)) :
    ∃ k, first.cursor.bound q.sort = .ok k ∧ k < q.sort.rowKey last := by
  obtain ⟨k, hk⟩ := bound_of_page hback
  refine ⟨k, hk, ?_⟩
  rw [dashboardTasksCursor_some hsize hmax .previous hk,
    pageOf_previous (db.descending_listing q) (db.listing_perm q) rfl rfl] at hback
  have hmem : last ∈ (listedPage (db.listing q) size i).tasks :=
    List.mem_of_getLast? ((chunk_getLast? hpos hi).trans hlast)
  rw [← congrArg TaskPage.tasks (Except.ok.inj hback)] at hmem
  have hfiltered := List.mem_reverse.mp (List.mem_of_mem_take (List.mem_reverse.mp hmem))
  simpa [pastCursor] using (List.mem_filter.mp hfiltered).2

theorem flatMap_listedPage (listing : List ListedTask) (hpos : 1 ≤ size) :
    ((List.range (pageCount listing size)).map (listedPage listing size)).flatMap (·.tasks) = listing := by
  rw [List.flatMap_map]
  refine (Keyset.flatMap_chunk listing size (pageCount listing size)).trans (List.take_of_length_le ?_)
  have hdiv := Nat.lt_div_mul_add (a := listing.length - 1) hpos
  rw [pageCount, Nat.succ_mul]
  omega

end Walk

/-- Following the next cursor from the first page gives every matching task once, in the order of the list, and comes
to an end. From each page after the first, the previous cursor gives the page before it. -/
def VisitsListing (db : DashboardDb) (q : TaskQuery) : Prop :=
  ∃ pages : List TaskPage, (∀ fuel, pages.length ≤ fuel → followNext db q fuel none = .ok pages) ∧
    (pages.flatMap (·.tasks)).Perm (db.filtered q) ∧ ((pages.flatMap (·.tasks)).map (·.id)).Nodup ∧
    (pages.flatMap (·.tasks)).Pairwise (fun s t => q.sort.rowKey t < q.sort.rowKey s) ∧
    ∀ i before page, pages[i]? = some before → pages[i + 1]? = some page →
      ∃ c, page.previousCursor = some c ∧ dashboardTasksCursor db q .previous (some c) = .ok before

/-- A walk visits the listing exactly when the page size is below the greatest integer and the cursors between each
page and the next are read back. -/
theorem pages_visit_listing_iff (db : DashboardDb) (q : TaskQuery) (hpos : 1 ≤ q.pageSize) :
    VisitsListing db q ↔ q.pageSize < 2147483647 ∧ ∀ i last first,
      (db.listing q)[(i + 1) * q.pageSize.toNat - 1]? = some last →
      (db.listing q)[(i + 1) * q.pageSize.toNat]? = some first →
        CommonEra last.updatedAt ∧ ∃ k, first.cursor.bound q.sort = .ok k ∧ k < q.sort.rowKey last := by
  obtain ⟨size, hsize⟩ := Int.eq_ofNat_of_zero_le (Int.le_trans Int.one_nonneg hpos)
  have hpos' : 1 ≤ size := by omega
  rw [show q.pageSize.toNat = size by omega]
  constructor
  · rintro ⟨pages, hfollow, hperm, -, hsorted, hprevious⟩
    have hwalk := hfollow pages.length le_rfl
    have hmax : q.pageSize < 2147483647 := by
      obtain ⟨_, page, -, hpage, -⟩ := followNext_cases hwalk
      by_contra hmax
      rw [dashboardTasksCursor, if_pos (by omega)] at hpage
      cases hpage
    have hmax' : size < 2147483647 := by omega
    have hlisting : pages.flatMap (·.tasks) = (db.listing q).drop (0 * size) := by
      rw [Nat.zero_mul, List.drop_zero]
      exact (Keyset.sortDesc_eq hsorted hperm).symm
    obtain ⟨-, hpages⟩ := pages_of_follow hsize hpos' hmax' hwalk (first_page hsize hmax') hlisting
    refine ⟨hmax, fun i last first hlast hfirst => ?_⟩
    have hi := (List.getElem?_eq_some_iff.mp hfirst).1
    obtain ⟨hera, hbefore, hpage⟩ := hpages i (by rwa [Nat.zero_add])
    rw [Nat.zero_add] at hera hbefore hpage
    refine ⟨hera last hlast, ?_⟩
    obtain ⟨c, hc, hback⟩ := hprevious i _ _ hbefore hpage
    rw [listedPage_previousCursor hpos' hfirst] at hc
    obtain rfl := Option.some.inj hc
    exact bound_of_previous hsize hpos' hmax' hlast hi hback
  · rintro ⟨hmax, hreads⟩
    have hmax' : size < 2147483647 := by omega
    have htasks := flatMap_listedPage (db.listing q) hpos'
    have hperm := db.listing_perm q
    refine ⟨(List.range (pageCount (db.listing q) size)).map (listedPage (db.listing q) size), ?_, ?_, ?_, ?_, ?_⟩
    · intro fuel hfuel
      rw [List.length_map, List.length_range, pageCount] at hfuel
      rw [List.range_eq_range', pageCount]
      exact followNext_from hsize hpos' hmax' hreads (by rw [pageCount, Nat.zero_add]) hfuel (first_page hsize hmax')
    · rw [htasks]
      exact hperm
    · rw [htasks]
      exact (hperm.map _).nodup_iff.mpr (db.nodup_filtered q)
    · rw [htasks]
      exact db.descending_listing q
    · intro i before page hbefore hpage
      simp only [List.getElem?_map, Option.map_eq_some_iff, List.getElem?_eq_some_iff, List.getElem_range,
        List.length_range, exists_prop] at hbefore hpage
      obtain ⟨_, ⟨-, rfl⟩, rfl⟩ := hbefore
      obtain ⟨_, ⟨hlt, rfl⟩, rfl⟩ := hpage
      obtain ⟨last, first, hlast, hfirst⟩ := exists_boundary ((lt_pageCount hpos').mp hlt)
      exact ⟨first.cursor, listedPage_previousCursor hpos' hfirst,
        previous_page hsize hpos' hmax' hlast hfirst (hreads i last first hlast hfirst)⟩

def readyTasks (runAts : List Time) : DashboardDb where
  now := 0
  task _ := some ⟨"default", "send", 0, []⟩
  taskQuery _ := some ("default", "send")
  taskRuntime := []
  fastTaskRuntime := runAts.zipIdx.map fun e => ⟨e.2, .ready, 1, e.1, none, none⟩
  taskOutcome := []
  fastTaskOutcome := []
  waiting _ := false
  waitWorker _ _ := none
  attemptWorker _ := none
  idText _ := ""
  ilike _ _ := false
  one_row := by
    have h : (List.range' 0 runAts.length).Nodup := List.nodup_range'
    simpa [List.map_map, Function.comp_def, List.zipIdx_map_snd] using h

def allTasks (pageSize : Int) : TaskQuery := ⟨.all, none, none, none, none, [], none, .updated, pageSize⟩

/-- Midnight of the fifteenth of March of the year 44 before year 1, in the count of years without a year 0. -/
def idesOfMarch : Time := (⟨-43, 3, 15⟩ : Calendar.Date).dayNumber * oneDay

def readyTask (id : TaskId) (runAt : Time) : ListedTask :=
  ⟨id, "default", "send", 0, .ready, 1, [], none, none, runAt⟩

/-- The last of three tasks is of an earlier era. The cursor before it is not, and its own is read as one of the year
44, which is still before the others. -/
theorem pages_visit_listing_iff_readyTasks : VisitsListing (readyTasks [0, -1, idesOfMarch]) (allTasks 2) := by
  have hlisting : (readyTasks [0, -1, idesOfMarch]).listing (allTasks 2) =
      [readyTask 0 0, readyTask 1 (-1), readyTask 2 idesOfMarch] := by decide +kernel
  refine (pages_visit_listing_iff _ (allTasks 2) (by decide)).mpr ⟨by decide, fun i last first hlast hfirst => ?_⟩
  rw [hlisting] at hlast hfirst
  have hi : (i + 1) * 2 < 3 := (List.getElem?_eq_some_iff.mp hfirst).1
  obtain rfl : i = 0 := by omega
  cases hlast
  cases hfirst
  exact ⟨by decide, TaskSort.key .updated 0 ((⟨44, 3, 15⟩ : Calendar.Date).dayNumber * oneDay) 2, by decide +kernel,
    by decide +kernel⟩

def ancientTasks : DashboardDb := readyTasks [idesOfMarch, idesOfMarch - oneDay]

def ancientPage (previousCursor : Option Cursor) : TaskPage where
  tasks := [readyTask 0 idesOfMarch]
  nextCursor := some ⟨0, 0, ⟨44, 3, 15, 0⟩⟩
  previousCursor := previousCursor

/-- The cursor of a task in that year is read as one of the year 44, and the page after it is the same page again. -/
theorem earlier_era_repeats : (ancientTasks.filtered (allTasks 1)).map (·.id) = [0, 1] ∧
      dashboardTasksCursor ancientTasks (allTasks 1) .next none = .ok (ancientPage none) ∧
      (∃ c, (ancientPage none).nextCursor = some c ∧
        dashboardTasksCursor ancientTasks (allTasks 1) .next (some c) = .ok (ancientPage (some c))) ∧
      ∀ fuel pages, followNext ancientTasks (allTasks 1) fuel none ≠ .ok pages := by
  have hnone : dashboardTasksCursor ancientTasks (allTasks 1) .next none = .ok (ancientPage none) := by
    decide +kernel
  have hsome : dashboardTasksCursor ancientTasks (allTasks 1) .next (some ⟨0, 0, ⟨44, 3, 15, 0⟩⟩) =
      .ok (ancientPage (some ⟨0, 0, ⟨44, 3, 15, 0⟩⟩)) := by
    decide +kernel
  have hloop : ∀ fuel pages, followNext ancientTasks (allTasks 1) fuel (some ⟨0, 0, ⟨44, 3, 15, 0⟩⟩) ≠ .ok pages := by
    intro fuel
    induction fuel with
    | zero => simp [followNext, throw, throwThe, MonadExceptOf.throw]
    | succ fuel ih =>
      intro pages h
      cases hrest : followNext ancientTasks (allTasks 1) fuel (some ⟨0, 0, ⟨44, 3, 15, 0⟩⟩) with
      | error e => simp [followNext, hsome, ancientPage, hrest, bind, Except.bind] at h
      | ok rest => exact ih rest hrest
  refine ⟨by decide +kernel, hnone, ⟨_, rfl, hsome⟩, ?_⟩
  intro fuel pages h
  cases fuel with
  | zero => simp [followNext, throw, throwThe, MonadExceptOf.throw] at h
  | succ fuel =>
    cases hrest : followNext ancientTasks (allTasks 1) fuel (some ⟨0, 0, ⟨44, 3, 15, 0⟩⟩) with
    | error e => simp [followNext, hnone, ancientPage, hrest, bind, Except.bind] at h
    | ok rest => exact hloop fuel rest hrest

end Workhorse
