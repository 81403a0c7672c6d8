import CangjieCompiler.IncrementalCompilation.UnchangedDiff

/-!
# The declarations that a changed order affects

The comparison of the orders of a file finds the declarations that a global variable has overtaken,
those that were moved to the file, and those before a variable that was moved to the file.  The
first are found with a running maximum of indices, the others on a way back that ends at the last
variable that was moved.
-/

namespace Cangjie.IncrementalCompilation

namespace OrderDiffCompare

/-! ## What is to be found -/

/-- The current list of a file: its declarations are known by their names, and their indices do not
decrease and are not negative. -/
structure CurFile (md : RawMangledName → Option DeclView) where
  decls : List FileDecl
  nodup_names : (decls.map fun d => d.decl.rawMangleName).Nodup
  known : ∀ d ∈ decls, md d.decl.rawMangleName = some d.decl
  sorted : decls.Pairwise fun a b => a.gvid ≤ b.gvid
  nonneg : ∀ d ∈ decls, 0 ≤ d.gvid

/-- Some variable that stood before a declaration in the old order now has a larger index. -/
def Overtaken (old : List RawMangledName) (cur : List FileDecl) (d : FileDecl) : Prop :=
  ∃ v ∈ cur, isGV v.decl = true ∧ d.gvid < v.gvid ∧
    [v.decl.rawMangleName, d.decl.rawMangleName].Sublist old

/-- A declaration that was in another file. -/
def MovedHere (exc old : List RawMangledName) (d : FileDecl) : Prop :=
  d.decl.rawMangleName ∉ old ∧ d.decl.rawMangleName ∉ exc

/-- A declaration that was moved, or that now stands before a variable that was moved. -/
def AffectedByMove (exc old : List RawMangledName) (cur : List FileDecl) (d : FileDecl) : Prop :=
  MovedHere exc old d ∨ ∃ v, MovedHere exc old v ∧ isGV v.decl = true ∧ [d, v].Sublist cur

lemma pair_sublist_cons {α : Type} {x y b : α} {l : List α} :
    [x, y].Sublist (b :: l) ↔ [x, y].Sublist l ∨ x = b ∧ y ∈ l := by
  rw [List.sublist_cons_iff]
  refine or_congr_right ⟨?_, ?_⟩
  · rintro ⟨r, hr, hsub⟩
    obtain ⟨rfl, rfl⟩ := List.cons.inj hr
    exact ⟨rfl, List.singleton_sublist.mp hsub⟩
  · rintro ⟨rfl, hy⟩
    exact ⟨[y], rfl, List.singleton_sublist.mpr hy⟩

/-! ## The running maximum -/

section Order

variable {gvidMap : OrderedMap RawMangledName ℤ} {md : RawMangledName → Option DeclView}

/-- A name that is found with an index below `last`, or below that of a variable before it. -/
def IsBelow (gvidMap : OrderedMap RawMangledName ℤ) (md : RawMangledName → Option DeclView)
    (last : ℤ) (old : List RawMangledName) (decl : DeclView) : Prop :=
  ∃ n id, gvidMap.find? n = some id ∧ md n = some decl ∧
    (n ∈ old ∧ id < last ∨ ∃ m idm v, gvidMap.find? m = some idm ∧ md m = some v ∧
      isGV v = true ∧ id < idm ∧ [m, n].Sublist old)

/-- A name that is not found does not matter. -/
lemma isBelow_cons_of_none {last : ℤ} {b : RawMangledName} {old : List RawMangledName}
    (hb : gvidMap.find? b = none) {decl : DeclView} :
    IsBelow gvidMap md last (b :: old) decl ↔ IsBelow gvidMap md last old decl := by
  constructor
  · rintro ⟨n, id, hn, hdecl, ⟨hmem, hlast⟩ | ⟨m, idm, v, hm, hv, hgv, hlt, hsub⟩⟩
    · rcases List.mem_cons.mp hmem with rfl | hmem
      · exact absurd (hn.symm.trans hb) (Option.some_ne_none _)
      · exact ⟨n, id, hn, hdecl, .inl ⟨hmem, hlast⟩⟩
    · rcases pair_sublist_cons.mp hsub with hsub | ⟨rfl, -⟩
      · exact ⟨n, id, hn, hdecl, .inr ⟨m, idm, v, hm, hv, hgv, hlt, hsub⟩⟩
      · exact absurd (hm.symm.trans hb) (Option.some_ne_none _)
  · rintro ⟨n, id, hn, hdecl, ⟨hmem, hlast⟩ | ⟨m, idm, v, hm, hv, hgv, hlt, hsub⟩⟩
    · exact ⟨n, id, hn, hdecl, .inl ⟨List.mem_cons_of_mem b hmem, hlast⟩⟩
    · exact ⟨n, id, hn, hdecl, .inr ⟨m, idm, v, hm, hv, hgv, hlt, hsub.cons b⟩⟩

/-- A name that is found is below `last` itself, and raises it for the names behind it if it is a
variable. -/
lemma isBelow_cons_of_some {last id : ℤ} {b : RawMangledName} {old : List RawMangledName}
    (hb : gvidMap.find? b = some id) {v decl : DeclView} (hv : md b = some v) :
    IsBelow gvidMap md last (b :: old) decl ↔
      v = decl ∧ id < last ∨
        IsBelow gvidMap md (if isGV v then max id last else last) old decl := by
  have hlast : ∀ x, x < (if isGV v = true then max id last else last) ↔
      x < last ∨ isGV v = true ∧ x < id := by
    intro x
    split_ifs with hgv
    · rw [lt_max_iff, and_iff_right hgv, or_comm]
    · rw [or_iff_left fun h => hgv h.1]
  constructor
  · rintro ⟨n, id', hn, hdecl, ⟨hmem, hlt⟩ | ⟨m, idm, u, hm, hu, hgv, hlt, hsub⟩⟩
    · rcases List.mem_cons.mp hmem with rfl | hmem
      · obtain rfl := Option.some.inj (hn.symm.trans hb)
        exact .inl ⟨Option.some.inj (hv.symm.trans hdecl), hlt⟩
      · exact .inr ⟨n, id', hn, hdecl, .inl ⟨hmem, (hlast id').mpr (.inl hlt)⟩⟩
    · rcases pair_sublist_cons.mp hsub with hsub | ⟨rfl, hmem⟩
      · exact .inr ⟨n, id', hn, hdecl, .inr ⟨m, idm, u, hm, hu, hgv, hlt, hsub⟩⟩
      · obtain rfl := Option.some.inj (hm.symm.trans hb)
        obtain rfl := Option.some.inj (hu.symm.trans hv)
        exact .inr ⟨n, id', hn, hdecl, .inl ⟨hmem, (hlast id').mpr (.inr ⟨hgv, hlt⟩)⟩⟩
  · rintro (⟨rfl, hlt⟩ | ⟨n, id', hn, hdecl, ⟨hmem, hlt⟩ | ⟨m, idm, u, hm, hu, hgv, hlt, hsub⟩⟩)
    · exact ⟨b, id, hb, hv, .inl ⟨List.mem_cons_self, hlt⟩⟩
    · rcases (hlast id').mp hlt with hlt | ⟨hgv, hlt⟩
      · exact ⟨n, id', hn, hdecl, .inl ⟨List.mem_cons_of_mem b hmem, hlt⟩⟩
      · exact ⟨n, id', hn, hdecl, .inr ⟨b, id, v, hb, hv, hgv, hlt,
          pair_sublist_cons.mpr (.inr ⟨rfl, hmem⟩)⟩⟩
    · exact ⟨n, id', hn, hdecl, .inr ⟨m, idm, u, hm, hu, hgv, hlt, hsub.cons b⟩⟩

/-- The largest indices, and what is found with them behind the numbers of the names before. -/
lemma findRecompileDeclsFrom_buildMaxidsFrom (old : List RawMangledName)
    (hmd : ∀ n, gvidMap.find? n ≠ none → md n ≠ none) (last : ℤ) :
    ∃ maxids, buildMaxidsFrom gvidMap md last old = some maxids ∧
      ∀ (before : List ℤ) (rid : ℕ), before.length = rid + 1 → ∀ result,
        ∃ res, findRecompileDeclsFrom gvidMap md (before ++ maxids) rid result old = some res ∧
          ∀ decl, decl ∈ res ↔ decl ∈ result ∨ IsBelow gvidMap md last old decl := by
  induction old generalizing last with
  | nil =>
    refine ⟨[], rfl, fun before rid _ result => ⟨result, rfl, fun decl => ?_⟩⟩
    refine (or_iff_left ?_).symm
    rintro ⟨n, id, -, -, ⟨hmem, -⟩ | ⟨m, idm, v, -, -, -, -, hsub⟩⟩
    · exact List.not_mem_nil hmem
    · exact List.cons_ne_nil _ _ (List.sublist_nil.mp hsub)
  | cons b old ih =>
    cases hb : gvidMap.find? b with
    | none =>
      obtain ⟨maxids, hmaxids, hfind⟩ := ih last
      refine ⟨maxids, by rw [buildMaxidsFrom, hb]; exact hmaxids, ?_⟩
      intro before rid hlength result
      obtain ⟨res, hres, hmem⟩ := hfind before rid hlength result
      refine ⟨res, by rw [findRecompileDeclsFrom, hb]; exact hres, fun decl => ?_⟩
      rw [hmem, isBelow_cons_of_none hb]
    | some id =>
      have hfound : gvidMap.find? b ≠ none := by
        rw [hb]
        exact Option.some_ne_none id
      obtain ⟨v, hv⟩ := Option.ne_none_iff_exists'.mp (hmd b hfound)
      obtain ⟨maxids, hmaxids, hfind⟩ := ih (if isGV v then max id last else last)
      refine ⟨max id last :: maxids, ?_, ?_⟩
      · rw [buildMaxidsFrom, hb]
        dsimp only
        rw [hv, Option.bind_eq_bind, Option.bind_some, hmaxids]
        rfl
      · intro before rid hlength result
        have hget : (before ++ max id last :: maxids)[rid + 1]? = some (max id last) := by
          rw [← hlength, List.getElem?_append_right le_rfl, Nat.sub_self]
          rfl
        have happend : before ++ max id last :: maxids = (before ++ [max id last]) ++ maxids := by
          rw [List.append_assoc, List.singleton_append]
        have hlength' : (before ++ [max id last]).length = rid + 1 + 1 := by
          rw [List.length_append, hlength, List.length_singleton]
        have hlt : id < max id last ↔ id < last := by
          rw [lt_max_iff, or_iff_right (lt_irrefl id)]
        rw [findRecompileDeclsFrom, hb]
        dsimp only
        rw [hget, Option.bind_eq_bind, Option.bind_some, happend]
        by_cases hbelow : id < last
        · obtain ⟨res, hres, hmem⟩ := hfind _ _ hlength' (result.insert v)
          refine ⟨res, ?_, fun decl => ?_⟩
          · rw [if_pos (hlt.mpr hbelow), hv]
            exact hres
          · rw [hmem, List.mem_insert_iff, isBelow_cons_of_some hb hv, and_iff_left hbelow,
              ← or_assoc, eq_comm (a := decl), or_comm (a := v = decl)]
        · obtain ⟨res, hres, hmem⟩ := hfind _ _ hlength' result
          refine ⟨res, ?_, fun decl => ?_⟩
          · rw [if_neg fun h => hbelow (hlt.mp h)]
            exact hres
          · rw [hmem, isBelow_cons_of_some hb hv, or_iff_right (a := v = decl ∧ id < last)
              fun h => hbelow h.2]

end Order

/-! ## The way back -/

lemma mem_foldr_insert (before : List FileDecl) (result : List DeclView) (decl : DeclView) :
    decl ∈ before.foldr (fun d result => result.insert d.decl) result ↔
      decl ∈ result ∨ ∃ d ∈ before, d.decl = decl := by
  induction before with
  | nil => exact (or_iff_left fun ⟨d, hd, _⟩ => List.not_mem_nil hd).symm
  | cons d before ih =>
    rw [List.foldr_cons, List.mem_insert_iff, ih]
    constructor
    · rintro (rfl | hresult | ⟨e, he, rfl⟩)
      · exact .inr ⟨d, List.mem_cons_self, rfl⟩
      · exact .inl hresult
      · exact .inr ⟨e, List.mem_cons_of_mem d he, rfl⟩
    · rintro (hresult | ⟨e, he, rfl⟩)
      · exact .inr (.inl hresult)
      · rcases List.mem_cons.mp he with rfl | he
        · exact .inl rfl
        · exact .inr (.inr ⟨e, he, rfl⟩)

/-- A declaration that was moved, or that is met behind a moved variable on the way back. -/
def FoundOnWayBack (exc old : List RawMangledName) (back : List FileDecl) (d : FileDecl) : Prop :=
  MovedHere exc old d ∨ ∃ v, MovedHere exc old v ∧ isGV v.decl = true ∧ [v, d].Sublist back

/-- Before the first moved variable on the way back, only what was moved is found. -/
lemma exists_foundOnWayBack_cons {exc old : List RawMangledName} {d : FileDecl}
    {back : List FileDecl} (hd : ¬ (MovedHere exc old d ∧ isGV d.decl = true)) {decl : DeclView} :
    (∃ e ∈ d :: back, e.decl = decl ∧ FoundOnWayBack exc old (d :: back) e) ↔
      (d.decl = decl ∧ MovedHere exc old d) ∨
        ∃ e ∈ back, e.decl = decl ∧ FoundOnWayBack exc old back e := by
  have hback : ∀ {v e : FileDecl}, MovedHere exc old v → isGV v.decl = true →
      [v, e].Sublist (d :: back) → [v, e].Sublist back := by
    intro v e hmoved hgv hsub
    rcases pair_sublist_cons.mp hsub with hsub | ⟨rfl, -⟩
    · exact hsub
    · exact absurd ⟨hmoved, hgv⟩ hd
  constructor
  · rintro ⟨e, he, rfl, hmoved | ⟨v, hmoved, hgv, hsub⟩⟩
    · rcases List.mem_cons.mp he with rfl | he
      · exact .inl ⟨rfl, hmoved⟩
      · exact .inr ⟨e, he, rfl, .inl hmoved⟩
    · have hsub' := hback hmoved hgv hsub
      have he' : e ∈ back := hsub'.subset (List.mem_cons_of_mem v (List.mem_singleton_self e))
      exact .inr ⟨e, he', rfl, .inr ⟨v, hmoved, hgv, hsub'⟩⟩
  · rintro (⟨rfl, hmoved⟩ | ⟨e, he, rfl, hmoved | ⟨v, hmoved, hgv, hsub⟩⟩)
    · exact ⟨d, List.mem_cons_self, rfl, .inl hmoved⟩
    · exact ⟨e, List.mem_cons_of_mem d he, rfl, .inl hmoved⟩
    · exact ⟨e, List.mem_cons_of_mem d he, rfl, .inr ⟨v, hmoved, hgv, hsub.cons d⟩⟩

lemma mem_findRecompileDeclsFromFileMove (exc old : List RawMangledName) (back : List FileDecl)
    (result : List DeclView) (decl : DeclView) :
    decl ∈ findRecompileDeclsFromFileMove old exc back result ↔
      decl ∈ result ∨ ∃ d ∈ back, d.decl = decl ∧ FoundOnWayBack exc old back d := by
  induction back generalizing result with
  | nil => exact (or_iff_left fun ⟨d, hd, _⟩ => List.not_mem_nil hd).symm
  | cons d back ih =>
    rw [findRecompileDeclsFromFileMove]
    split_ifs with hexc hold hgv
    · have hstay : ¬ MovedHere exc old d := fun h => h.2 hexc
      rw [ih, exists_foundOnWayBack_cons fun h => hstay h.1,
        or_iff_right (a := d.decl = decl ∧ MovedHere exc old d) fun h => hstay h.2]
    · have hstay : ¬ MovedHere exc old d := fun h => h.1 hold
      rw [ih, exists_foundOnWayBack_cons fun h => hstay h.1,
        or_iff_right (a := d.decl = decl ∧ MovedHere exc old d) fun h => hstay h.2]
    · -- everything that is left is found, since it stands before this variable
      have hmoved : MovedHere exc old d := ⟨hold, hexc⟩
      rw [mem_foldr_insert, List.mem_insert_iff]
      constructor
      · rintro ((rfl | hresult) | ⟨e, he, rfl⟩)
        · exact .inr ⟨d, List.mem_cons_self, rfl, .inl hmoved⟩
        · exact .inl hresult
        · exact .inr ⟨e, List.mem_cons_of_mem d he, rfl,
            .inr ⟨d, hmoved, hgv, pair_sublist_cons.mpr (.inr ⟨rfl, he⟩)⟩⟩
      · rintro (hresult | ⟨e, he, rfl, -⟩)
        · exact .inl (.inr hresult)
        · rcases List.mem_cons.mp he with rfl | he
          · exact .inl (.inl rfl)
          · exact .inr ⟨e, he, rfl⟩
    · have hmoved : MovedHere exc old d := ⟨hold, hexc⟩
      rw [ih, exists_foundOnWayBack_cons fun h => hgv h.2, List.mem_insert_iff,
        and_iff_left hmoved, eq_comm (a := decl), or_comm (a := d.decl = decl), or_assoc]

lemma foundOnWayBack_reverse {exc old : List RawMangledName} {cur : List FileDecl} {d : FileDecl} :
    FoundOnWayBack exc old cur.reverse d ↔ AffectedByMove exc old cur d := by
  have hreverse : ∀ v : FileDecl, [v, d].Sublist cur.reverse ↔ [d, v].Sublist cur := fun v => by
    have hpair : [v, d] = [d, v].reverse := rfl
    rw [hpair, List.reverse_sublist]
  exact or_congr_right (exists_congr fun v => and_congr_right fun _ => and_congr_right fun _ =>
    hreverse v)

/-! ## The comparison of orders -/

lemma find?_foldl_buildGvidMap_ne_none {cur : List FileDecl} {h : OrderedMap RawMangledName ℤ}
    {n : RawMangledName} (hn : h.find? n ≠ none ∨ ∃ d ∈ cur, d.decl.rawMangleName = n) :
    (cur.foldl (fun h d => h.assign d.decl.rawMangleName d.gvid) h).find? n ≠ none := by
  induction cur generalizing h with
  | nil => exact hn.resolve_right fun ⟨d, hd, _⟩ => List.not_mem_nil hd
  | cons d cur ih =>
    refine ih ?_
    rw [OrderedMap.find?_assign]
    split_ifs with hname
    · exact .inl (Option.some_ne_none _)
    · refine hn.imp_right ?_
      rintro ⟨e, he, rfl⟩
      rcases List.mem_cons.mp he with rfl | he
      · exact absurd rfl hname
      · exact ⟨e, he, rfl⟩

section CurFile

variable {md : RawMangledName → Option DeclView} (cur : CurFile md)

lemma CurFile.eq_of_name {d e : FileDecl} (hd : d ∈ cur.decls) (he : e ∈ cur.decls)
    (h : d.decl.rawMangleName = e.decl.rawMangleName) : d = e :=
  List.inj_on_of_nodup_map cur.nodup_names hd he h

lemma CurFile.find?_buildGvidMap {n : RawMangledName} {id : ℤ} :
    (buildGvidMap cur.decls).find? n = some id ↔
      ∃ d ∈ cur.decls, d.decl.rawMangleName = n ∧ d.gvid = id := by
  refine ⟨exists_of_find?_buildGvidMap, ?_⟩
  rintro ⟨d, hd, rfl, rfl⟩
  obtain ⟨id, hid⟩ := Option.ne_none_iff_exists'.mp
    (find?_foldl_buildGvidMap_ne_none (h := .empty) (.inr ⟨d, hd, rfl⟩))
  obtain ⟨e, he, hname, rfl⟩ := exists_of_find?_buildGvidMap hid
  rw [cur.eq_of_name he hd hname] at hid
  exact hid

/-- The names below a variable before them are those of the declarations that it has overtaken. -/
lemma CurFile.isBelow_iff (old : List RawMangledName) (decl : DeclView) :
    IsBelow (buildGvidMap cur.decls) md 0 old decl ↔
      ∃ d ∈ cur.decls, d.decl = decl ∧ Overtaken old cur.decls d := by
  constructor
  · rintro ⟨n, id, hn, hdecl, hbelow⟩
    obtain ⟨d, hd, rfl, rfl⟩ := cur.find?_buildGvidMap.mp hn
    obtain rfl := Option.some.inj ((cur.known d hd).symm.trans hdecl)
    refine ⟨d, hd, rfl, ?_⟩
    rcases hbelow with ⟨-, hneg⟩ | ⟨m, idm, v, hm, hv, hgv, hlt, hsub⟩
    · exact absurd (cur.nonneg d hd) (not_le.mpr hneg)
    · obtain ⟨e, he, rfl, rfl⟩ := cur.find?_buildGvidMap.mp hm
      obtain rfl := Option.some.inj ((cur.known e he).symm.trans hv)
      exact ⟨e, he, hgv, hlt, hsub⟩
  · rintro ⟨d, hd, rfl, v, hv, hgv, hlt, hsub⟩
    have hfound : ∀ e ∈ cur.decls,
        (buildGvidMap cur.decls).find? e.decl.rawMangleName = some e.gvid :=
      fun e he => cur.find?_buildGvidMap.mpr ⟨e, he, rfl, rfl⟩
    exact ⟨_, _, hfound d hd, cur.known d hd,
      .inr ⟨_, _, _, hfound v hv, cur.known v hv, hgv, hlt, hsub⟩⟩

end CurFile

end OrderDiffCompare

end Cangjie.IncrementalCompilation
