/-
# The pages of a history

Following the cursors of `listAgentTurns`, with any commits in between, returns each turn of the agent that
was there at the first call once, in the order of the sequences.
-/
import EasyPi.Lib.Pointwise
import EasyPi.Lib.TextLines
import EasyPi.Subagent.Gates
import EasyPi.Subagent.HistoryLedger

namespace EasyPi.Subagent

open List
namespace History

section
variable {K : TurnChecks} {L : Ledger} {target path : String} {after high limit : ℕ}

/-! ### Pages -/

/-- The bytes of the turns of a page, each with a comma. -/
def turnsBytes (turns : List TurnView) : ℕ := (turns.map fun view => jsonBytes view.toJson + 1).sum

theorem pageLoop_spec {views : List TurnView} {bytes : ℕ}
    (hsmall : ∀ view ∈ views, jsonBytes view.toJson ≤ maxTurnMetadataBytes) (hbyt : bytes ≤ maxPageResponseBytes) :
    ∃ page, pageLoop bytes views = .ok page ∧ page <+: views ∧ bytes + turnsBytes page ≤ maxPageResponseBytes ∧
      (bytes + maxTurnMetadataBytes + 1 ≤ maxPageResponseBytes → page = [] → views = []) := by
  induction views generalizing bytes with
  | nil => exact ⟨[], rfl, prefix_rfl, hbyt, fun _ _ => rfl⟩
  | cons view views ih =>
    obtain ⟨hview, hvie⟩ := forall_mem_cons.mp hsmall
    have hfits : ¬ maxPageResponseBytes < jsonBytes view.toJson + 1 + pageWrapperBytes := by
      rw [maxPageResponseBytes, pageWrapperBytes]
      rw [maxTurnMetadataBytes] at hview
      omega
    rw [pageLoop, if_neg hfits]
    by_cases hfull : maxPageResponseBytes < bytes + (jsonBytes view.toJson + 1)
    · rw [if_pos hfull]
      exact ⟨[], rfl, nil_prefix, hbyt, fun hroom _ => by omega⟩
    · rw [if_neg hfull]
      obtain ⟨page, hpage, hbeg, hsum, -⟩ := ih hvie (not_lt.mp hfull)
      refine ⟨view :: page, by rw [hpage]; rfl, cons_prefix_cons.mpr ⟨rfl, hbeg⟩, ?_,
        fun _ h => absurd h (cons_ne_nil _ _)⟩
      rw [turnsBytes, map_cons, sum_cons, ← Nat.add_assoc]
      exact hsum

theorem mem_rowsBetween {row : TurnRow} : row ∈ rowsBetween L target after high ↔
      row ∈ L.rows ∧ row.target = target ∧ after < row.sequence ∧ row.sequence ≤ high := by
  rw [rowsBetween, mem_filter]
  simp only [Bool.and_eq_true, decide_eq_true_eq, and_assoc]

def viewsOf (rows : List TurnRow) : List TurnView := rows.map (·.record.view)

section
variable (hvalid : Valid K L)
include hvalid

theorem mapM_decodeTurn {rows : List TurnRow} (hrows : ∀ row ∈ rows, row ∈ L.rows) :
    rows.mapM (decodeTurn K L) = .ok (rows.map (·.record)) := by
  rw [mapM_eq_ok, forall₂_map_right_iff, forall₂_same]
  exact fun row hrow => hvalid.decodes row (hrows row hrow)

/-- **A page** is a beginning of what it is asked for, and empty only if that is. -/
theorem pageTurns_spec (haft : after ≤ high) (hhigh : high ≤ maxSequence L)
    (hlimit : 1 ≤ limit ∧ limit ≤ maxPageSize) : ∃ page, pageTurns K L target after high limit = .ok page ∧
      page <+: viewsOf (rowsBetween L target after high) ∧ pageWrapperBytes + turnsBytes page ≤ maxPageResponseBytes ∧
      (page = [] → rowsBetween L target after high = []) := by
  have hsafe : maxSequence L ≤ maxSafeInteger := by
    have hread := hvalid.readHighWater_eq
    rw [readHighWater, bind_ok_iff] at hread
    obtain ⟨_, hread, -⟩ := hread
    exact not_lt.mp (failIf_eq_ok.mp hread)
  have hsize : maxPageSize ≤ maxSafeInteger := by decide
  have hbou : ¬ (maxSafeInteger < after ∨ maxSafeInteger < high ∨ maxSafeInteger < limit ∨ high < after ∨
      maxSequence L < high ∨ limit < 1 ∨ maxPageSize < limit) := by omega
  have hmem : ∀ row ∈ (rowsBetween L target after high).take limit, row ∈ L.rows :=
    fun row hrow => (mem_rowsBetween.mp (mem_of_mem_take hrow)).1
  have hsmall : ∀ view ∈ viewsOf ((rowsBetween L target after high).take limit),
      jsonBytes view.toJson ≤ maxTurnMetadataBytes := by
    intro view hview
    obtain ⟨row, hrow, rfl⟩ := mem_map.mp hview
    exact (hvalid.sound (hmem row hrow)).2.bytes
  obtain ⟨page, hpage, hbeg, hbyt, hemp⟩ := @pageLoop_spec _ pageWrapperBytes hsmall (by decide)
  refine ⟨page, ?_, ?_, hbyt, fun hnil => ?_⟩
  · rw [pageTurns, hvalid.readHighWater_eq]
    change (failIf _ _ >>= _) = _
    rw [failIf_bind hbou, mapM_decodeTurn hvalid hmem]
    change pageLoop _ (List.map _ (List.map _ _)) = _
    rw [map_map]
    exact hpage
  · refine hbeg.trans ?_
    rw [viewsOf, map_take]
    exact take_prefix ..
  · have htake := hemp (by decide) hnil
    rw [viewsOf, map_eq_nil_iff, take_eq_nil_iff] at htake
    exact htake.resolve_left (by omega)

theorem Valid.rowsBetween_sorted (target : String) (after high : ℕ) :
    (rowsBetween L target after high).Pairwise fun row other => row.sequence < other.sequence :=
  hvalid.sorted.filter _

theorem rowsBetween_behind {page rest : List TurnRow} {last : TurnRow}
    (hspl : rowsBetween L target after high = page ++ rest) (hlast : page.getLast? = some last) :
    rowsBetween L target last.sequence high = rest := by
  have hsrt := hvalid.rowsBetween_sorted target after high
  have hmem : last ∈ rowsBetween L target after high := by
    rw [hspl]
    exact mem_append_left _ (mem_of_getLast? hlast)
  have haft := (mem_rowsBetween.mp hmem).2.2.1
  have hfil : rowsBetween L target last.sequence high =
      (rowsBetween L target after high).filter fun row => last.sequence < row.sequence := by
    rw [rowsBetween, rowsBetween, filter_filter]
    refine filter_congr fun row _ => ?_
    by_cases h : last.sequence < row.sequence
    · have habv : after < row.sequence := haft.trans h
      simp [h, habv]
    · simp [h]
  rw [hspl, pairwise_append] at hsrt
  obtain ⟨init, hinit⟩ := List.getLast?_eq_some_iff.mp hlast
  have hpage : page.filter (fun row => last.sequence < row.sequence) = [] := by
    refine filter_eq_nil_iff.mpr fun row hrow => ?_
    have hle : row.sequence ≤ last.sequence := by
      rw [hinit] at hrow hsrt
      rcases mem_append.mp hrow with hfst | hself
      · exact ((pairwise_append.mp hsrt.1).2.2 row hfst last (mem_singleton_self _)).le
      · rw [mem_singleton.mp hself]
    simpa using hle
  have hrest : rest.filter (fun row => last.sequence < row.sequence) = rest :=
    filter_eq_self.mpr fun row hrow =>
      decide_eq_true (hsrt.2.2 last (mem_of_getLast? hlast) row hrow)
  rw [hfil, hspl, filter_append, hpage, hrest, nil_append]

end

/-! ### Sizes -/

theorem length_utf8_ofChars (text : List Char) : (utf8 (Text.ofChars text)).length = String.utf8Len text := by
  induction text with
  | nil => rfl
  | cons c text ih =>
    change (utf8 (.char c :: Text.ofChars text)).length = _
    rw [utf8_cons, length_append, ih, length_bytes, String.utf8Len_cons, Nat.add_comm]
    rfl

theorem length_intercalate_le (segments : List (List Char)) :
    (['/'].intercalate segments).length ≤ (segments.map (·.length + 1)).sum := by
  induction segments with
  | nil => exact Nat.le_refl _
  | cons segment segments ih =>
    rw [map_cons, sum_cons]
    by_cases h : segments = []
    · rw [h, intercalate_singleton]
      omega
    · rw [intercalate_cons_of_ne_nil h, length_append, length_append, length_singleton]
      omega

theorem isPlain_of_isAlphanumeric {c : Char} (h : isAlphanumeric c = true) : IsPlain c := by
  have hbd : c.toNat < 128 := by
    change (decide ('A'.val ≤ c.val ∧ c.val ≤ 'Z'.val) || ('a'.val ≤ c.val && c.val ≤ 'z'.val) ||
      ('0'.val ≤ c.val && c.val ≤ '9'.val)) = true at h
    simp only [Bool.or_eq_true, Bool.and_eq_true, decide_eq_true_eq, UInt32.le_iff_toNat_le] at h
    change c.val.toNat < 128
    rcases h with (h | h) | h <;> exact Nat.lt_of_le_of_lt h.2 (by decide)
  have hall := (show ∀ n : Fin 128, isAlphanumeric (Char.ofNat n) = true → IsPlain (Char.ofNat n) by decide)
    ⟨c.toNat, hbd⟩
  rw [Char.ofNat_toNat] at hall
  exact hall h

theorem isPlain_of_mem_taskName {segment : List Char} (h : isTaskName segment = true) {c : Char} (hc : c ∈ segment) :
    IsPlain c := by
  rw [isTaskName, Bool.and_eq_true, Bool.and_eq_true] at h
  have hchar := all_eq_true.mp h.1.2 c hc
  rw [Bool.or_eq_true, Bool.or_eq_true, Bool.or_eq_true, beq_iff_eq, beq_iff_eq, beq_iff_eq] at hchar
  rcases hchar with ((hchar | rfl) | rfl) | rfl
  · exact isPlain_of_isAlphanumeric hchar
  · decide
  · decide
  · decide

theorem sum_taskNames_le {names : List (List Char)} (h : ∀ name ∈ names, isTaskName name = true) :
    (names.map (·.length + 1)).sum ≤ 65 * names.length := by
  induction names with
  | nil => exact Nat.le_refl _
  | cons name names ih =>
    obtain ⟨hname, hnms⟩ := forall_mem_cons.mp h
    rw [isTaskName, Bool.and_eq_true, decide_eq_true_eq] at hname
    have hrest := ih hnms
    rw [map_cons, sum_cons, length_cons]
    omega

theorem jsonBytes_agentPath (h : isAgentPath path = true) : jsonBytes (.str path) ≤ 268 := by
  have hpath : ['/'].intercalate (path.toList.splitOn '/') = path.toList := intercalate_splitOn '/'
  rw [isAgentPath] at h
  split at h
  · rename_i root names hspl
    rw [Bool.and_eq_true, Bool.and_eq_true, beq_iff_eq, decide_eq_true_eq] at h
    obtain ⟨⟨rfl, hdep⟩, hnms⟩ := h
    have hnms : ∀ name ∈ names, isTaskName name = true := all_eq_true.mp hnms
    rw [hspl] at hpath
    have hpl : ∀ c ∈ path.toList, IsPlain c := by
      intro c hc
      rw [← hpath] at hc
      rcases mem_joinLines '/' hc with rfl | ⟨segment, hsegment, hc⟩
      · decide
      · rcases mem_cons.mp hsegment with rfl | hsegment
        · exact absurd hc not_mem_nil
        · rcases mem_cons.mp hsegment with rfl | hname
          · exact isPlain_of_all "root".toList (by decide +kernel) c hc
          · exact isPlain_of_mem_taskName (hnms segment hname) hc
    have hlen := length_intercalate_le ([] :: "root".toList :: names)
    have hsum := sum_taskNames_le hnms
    have hroot : ("root".toList).length = 4 := by decide
    rw [hpath, map_cons, map_cons, sum_cons, sum_cons, length_nil, hroot] at hlen
    rw [maxDepth] at hdep
    rw [jsonBytes_str hpl]
    omega
  · exact absurd h Bool.false_ne_true

theorem isPlain_hexadecimal (H : Host) (text : String) : ∀ c ∈ (H.sha256 text).toList, IsPlain c := by
  intro c hc
  rcases H.hexadecimal text c hc with hdig | hletter
  · exact isPlain_of_isDigit hdig
  · exact isPlain_of_all ['a', 'b', 'c', 'd', 'e', 'f'] (by decide +kernel) c hletter

theorem jsonBytes_cursorValue (H : Host) (text : String) (haft : after ≤ maxSafeInteger)
    (hhigh : high ≤ maxSafeInteger) : jsonBytes (cursorValue (H.sha256 text) after high) ≤ 130 := by
  have hsafe : maxSafeInteger < 10 ^ 16 := by decide
  have hsco := jsonBytes_str (isPlain_hexadecimal H text)
  have hfst := jsonBytes_num_le (n := after) (k := 16) (by decide) (haft.trans_lt hsafe)
  have hsec := jsonBytes_num_le (n := high) (k := 16) (by decide) (hhigh.trans_lt hsafe)
  have hname₁ : jsonBytes (.str "scope") = 7 := jsonBytes_str (isPlain_of_all _ (by decide +kernel))
  have hname₂ : jsonBytes (.str "after") = 7 := jsonBytes_str (isPlain_of_all _ (by decide +kernel))
  have hname₃ : jsonBytes (.str "highWater") = 11 := jsonBytes_str (isPlain_of_all _ (by decide +kernel))
  rw [H.length_sha256] at hsco
  rw [cursorValue, jsonBytes_obj (cons_ne_nil _ _)]
  simp only [map_cons, map_nil, sum_cons, sum_nil, memberBytes, hsco, hname₁, hname₂, hname₃]
  omega

theorem length_encodeCursor (H : Host) (text : String) (haft : after ≤ maxSafeInteger)
    (hhigh : high ≤ maxSafeInteger) : (encodeCursor (H.sha256 text) after high).toList.length ≤ 174 := by
  have hbyt := jsonBytes_cursorValue H text haft hhigh
  rw [jsonBytes_eq] at hbyt
  have hlen := length_base64url (utf8 (.ofChars
    (Standard.stringify (cursorValue (H.sha256 text) after high)).toList))
  rw [length_utf8_ofChars] at hlen
  have hpri : (Standard.stringify (cursorValue (H.sha256 text) after high)).toList =
      Standard.print (cursorValue (H.sha256 text) after high) := String.toList_ofList
  rw [encodeCursor, String.toList_ofList]
  rw [hpri] at hlen ⊢
  omega

theorem base64Alphabet_plain : ∀ c ∈ base64Alphabet, IsPlain c := isPlain_of_all _ (by decide +kernel)

variable {cursor : Option String} {page : TurnPage}

theorem jsonBytes_nextCursor {H : Host}
    (h : ∀ text ∈ cursor, ∃ scope after high, after ≤ maxSafeInteger ∧ high ≤ maxSafeInteger ∧
      text = encodeCursor (H.sha256 scope) after high) : jsonBytes (nullable cursor) ≤ 176 := by
  cases cursor with
  | none => exact (show jsonBytes .null ≤ 176 by decide)
  | some text =>
    obtain ⟨scope, after, high, haft, hhigh, rfl⟩ := h text rfl
    have hlen := length_encodeCursor H scope haft hhigh
    have hpl : ∀ c ∈ (encodeCursor (H.sha256 scope) after high).toList, IsPlain c := by
      intro c hc
      rw [encodeCursor, String.toList_ofList] at hc
      exact base64Alphabet_plain c (base64url_mem _ c hc)
    change jsonBytes (.str _) ≤ 176
    rw [jsonBytes_str hpl]
    omega

/-- **A page fits**: its wrapper takes less than what is left for it. -/
theorem jsonBytes_page {H : Host} (hpath : isAgentPath page.target = true)
    (htns : pageWrapperBytes + turnsBytes page.turns ≤ maxPageResponseBytes)
    (hcur : ∀ text ∈ page.nextCursor, ∃ scope after high, after ≤ maxSafeInteger ∧
      high ≤ maxSafeInteger ∧ text = encodeCursor (H.sha256 scope) after high) :
    jsonBytes page.toJson ≤ maxPageResponseBytes := by
  have htgt := jsonBytes_agentPath hpath
  have hnext := jsonBytes_nextCursor hcur
  have hcov : jsonBytes (.str (coverageText page.historyCoverage)) ≤ 15 := by
    cases page.historyCoverage with
    | complete | retainedOnly => exact (jsonBytes_str (isPlain_of_all _ (by decide +kernel))).le.trans (by decide)
  have harr := jsonBytes_arr_le (page.turns.map (·.toJson))
  rw [map_map] at harr
  have hsum : ((page.turns.map ((jsonBytes · + 1) ∘ fun view => view.toJson)).sum) = turnsBytes page.turns := rfl
  rw [hsum] at harr
  have hname₁ : jsonBytes (.str "target") = 8 := jsonBytes_str (isPlain_of_all _ (by decide +kernel))
  have hname₂ : jsonBytes (.str "history_coverage") = 18 := jsonBytes_str (isPlain_of_all _ (by decide +kernel))
  have hname₃ : jsonBytes (.str "turns") = 7 := jsonBytes_str (isPlain_of_all _ (by decide +kernel))
  have hname₄ : jsonBytes (.str "next_cursor") = 13 := jsonBytes_str (isPlain_of_all _ (by decide +kernel))
  rw [pageWrapperBytes] at htns
  rw [TurnPage.toJson, jsonBytes_obj (cons_ne_nil _ _)]
  simp only [map_cons, map_nil, sum_cons, sum_nil, memberBytes, hname₁, hname₂, hname₃, hname₄]
  omega

/-! ### Cursors -/

/-- **A cursor is read back.** -/
theorem decodeCursor_encodeCursor (H : Host) (scope : String) (after high : ℕ) :
    decodeCursor H (encodeCursor scope after high) = some (cursorValue scope after high) := by
  have hwel : (cursorValue scope after high).WellFormed := by
    rw [cursorValue, JsonValue.WellFormed]
    exact ⟨show ["scope", "after", "highWater"].Nodup by decide,
      by simp [JsonValue.WellFormedFields, JsonValue.WellFormed]⟩
  have hcha (text : List Char) : decodeUtf8 (utf8 (Text.ofChars text)).length (utf8 (Text.ofChars text)) = text := by
    rw [decodeUtf8_utf8 (show _ ≤ (utf8 _).length from length_le_byteLength _), Text.ofChars, map_map]
    exact map_id _
  rw [decodeCursor, encodeCursor, String.toList_ofList, ofBase64url_base64url]
  rw [if_neg (not_not.mpr rfl), hcha, String.ofList_toList]
  exact H.parse_stringify _ hwel

theorem sortedKeys_cursor (scope : String) (after high : ℕ) :
    sortedKeys [("scope", .str scope), ("after", .num after), ("highWater", .num high)] = "after,highWater,scope" := by
  have htot (a b : String) : (textLE a b || textLE b a) = true := by
    rw [Bool.or_eq_true]
    exact textLE_total a b
  have hord : ["after", "highWater", "scope"].Pairwise fun a b => textLE a b = true := by decide +kernel
  have hsrt : ["scope", "after", "highWater"].mergeSort textLE = ["after", "highWater", "scope"] := by
    have hmer := @pairwise_mergeSort _ textLE (fun a b c => @textLE_trans a b c) htot
      ["scope", "after", "highWater"]
    refine List.Perm.eq_of_pairwise (fun a b _ _ hab hba => textLE_antisymm hab hba) hmer hord ?_
    exact (mergeSort_perm _ _).trans (@perm_append_comm _ ["scope"] ["after", "highWater"])
  rw [sortedKeys]
  simp only [map_cons, map_nil]
  rw [hsrt]
  rfl

theorem safeNatural_num {n : ℕ} (h : n ≤ maxSafeInteger) : safeNatural (some (.num n)) = some n := by
  have hsafe : (n : ℤ) ≤ maxSafeInteger := by exact_mod_cast h
  rw [safeNatural, Rat.num_natCast, Rat.den_natCast, if_pos ⟨rfl, Int.natCast_nonneg n, hsafe⟩, Int.natAbs_natCast]

variable {H : Host}

section
variable (hvalid : Valid K L)
include hvalid

theorem Valid.maxSequence_safe : maxSequence L ≤ maxSafeInteger := by
  have hread := hvalid.readHighWater_eq
  rw [readHighWater, bind_ok_iff] at hread
  obtain ⟨_, hread, -⟩ := hread
  exact not_lt.mp (failIf_eq_ok.mp hread)

theorem Valid.row_unique {row other : TurnRow} (hrow : row ∈ L.rows) (hoth : other ∈ L.rows)
    (h : row.sequence = other.sequence) : row = other := by
  have hnd : (L.rows.map (·.sequence)).Nodup := by
    rw [List.Nodup, pairwise_map]
    exact hvalid.sorted.imp fun hlt => hlt.ne
  exact inj_on_of_nodup_map hnd hrow hoth h

theorem anchor_spec (hpos : 1 ≤ after) (hhigh : after ≤ maxSequence L) (path : String) :
    ∃ anchor, pageTurns K L path (after - 1) after 1 = .ok anchor ∧
      (anchor.head?.map (·.sequence) = some after ↔ ∃ row ∈ L.rows, row.sequence = after ∧ row.target = path) := by
  obtain ⟨anchor, hanc, hbeg, -, hemp⟩ := @pageTurns_spec K L path (after - 1) after 1 hvalid (Nat.sub_le ..)
    hhigh ⟨Nat.le_refl _, by decide⟩
  refine ⟨anchor, hanc, ?_⟩
  have hview : ∀ view ∈ anchor, ∃ row ∈ L.rows, row.sequence = after ∧ row.target = path ∧ view.sequence = after := by
    intro view hview
    obtain ⟨row, hrow, rfl⟩ := mem_map.mp (hbeg.subset hview)
    obtain ⟨hmem, htgt, hlow, hle⟩ := mem_rowsBetween.mp hrow
    have hseq : row.sequence = after := by omega
    exact ⟨row, hmem, hseq, htgt, ((hvalid.sound hmem).1.sequence).trans hseq⟩
  constructor
  · intro hhead
    obtain ⟨view, hfst, -⟩ := Option.map_eq_some_iff.mp hhead
    obtain ⟨row, hmem, hseq, htgt, -⟩ := hview view (mem_of_head? hfst)
    exact ⟨row, hmem, hseq, htgt⟩
  · rintro ⟨row, hmem, hseq, htgt⟩
    cases anchor with
    | nil =>
      have hnone := hemp rfl
      have hrow : row ∈ rowsBetween L path (after - 1) after := mem_rowsBetween.mpr ⟨hmem, htgt, by omega, hseq.le⟩
      rw [hnone] at hrow
      exact absurd hrow not_mem_nil
    | cons view anchor =>
      obtain ⟨-, -, -, -, hsame⟩ := hview view (mem_cons_self ..)
      rw [List.head?_cons, Option.map_some, hsame]

/-- **A cursor of the agent** is accepted as long as its anchor is a turn of the agent. -/
theorem readCursor_encodeCursor (hpos : 1 ≤ after) (haft : after ≤ high)
    (hhigh : high ≤ maxSequence L) (hanc : ∃ row ∈ L.rows, row.sequence = after ∧ row.target = path) :
    readCursor K H L path (encodeCursor (scopeOf H L path) after high) = .ok (after, high) := by
  have hsafe := hvalid.maxSequence_safe
  obtain ⟨anchor, hpage, hiff⟩ := anchor_spec hvalid hpos (haft.trans hhigh) path
  have hlookup₁ : ([("scope", .str (scopeOf H L path)), ("after", .num after), ("highWater", .num high)] :
      Fields).lookup "after" = some (.num after) := rfl
  have hlookup₂ : ([("scope", .str (scopeOf H L path)), ("after", .num after), ("highWater", .num high)] :
      Fields).lookup "highWater" = some (.num high) := rfl
  have hlookup₃ : ([("scope", .str (scopeOf H L path)), ("after", .num after), ("highWater", .num high)] :
      Fields).lookup "scope" = some (.str (scopeOf H L path)) := rfl
  have hbou : ¬ (some (JsonValue.str (scopeOf H L path)) ≠ some (.str (scopeOf H L path)) ∨ after < 1 ∨
      high < after ∨ maxSequence L < high) := by
    rintro (h | h)
    · exact h rfl
    · omega
  rw [readCursor, hvalid.readHighWater_eq, decodeCursor_encodeCursor, cursorValue]
  change (failIf _ _ >>= _) = _
  rw [failIf_bind (not_not.mpr (sortedKeys_cursor _ _ _)), hlookup₁, hlookup₂, hlookup₃,
    safeNatural_num (by omega), safeNatural_num (by omega)]
  change (failIf _ _ >>= _) = _
  rw [failIf_bind hbou, hpage]
  change (failIf _ _ >>= _) = _
  rw [failIf_bind (not_not.mpr (hiff.mpr hanc))]
  rfl

/-- **A cursor of another agent** is rejected: its anchor is a turn of that agent. -/
theorem readCursor_foreign (hpos : 1 ≤ after) (haft : after ≤ maxSequence L) {other scope : String} (hoth : other ≠ path)
    (hanc : ∃ row ∈ L.rows, row.sequence = after ∧ row.target = path) :
    ∃ error, readCursor K H L other (encodeCursor scope after high) = .error error := by
  cases hres : readCursor K H L other (encodeCursor scope after high) with
  | error error => exact ⟨error, rfl⟩
  | ok bounds =>
    exfalso
    rw [readCursor, decodeCursor_encodeCursor, cursorValue] at hres
    obtain ⟨_, -, hres⟩ := bind_ok_iff.mp hres
    obtain ⟨_, -, hres⟩ := bind_ok_iff.mp hres
    have hlk : ([("scope", .str scope), ("after", .num after), ("highWater", .num high)] :
        Fields).lookup "after" = some (.num after) := rfl
    rw [hlk, safeNatural_num (haft.trans hvalid.maxSequence_safe)] at hres
    split at hres
    · rename_i found highWater' hfnd _
      rw [← Option.some_inj.mp hfnd] at hres
      obtain ⟨_, -, hres⟩ := bind_ok_iff.mp hres
      obtain ⟨anchor, hpage, hres⟩ := bind_ok_iff.mp hres
      obtain ⟨_, hhead, -⟩ := bind_ok_iff.mp hres
      rw [failIf_eq_ok, not_not] at hhead
      obtain ⟨anchor', hpage', hiff⟩ := anchor_spec hvalid hpos haft other
      rw [hpage, Except.ok.injEq] at hpage'
      rw [hpage'] at hhead
      obtain ⟨row, hmem, hseq, htgt⟩ := hiff.mp hhead
      obtain ⟨row', hmem', hseq', htgt'⟩ := hanc
      have hsame := hvalid.row_unique hmem hmem' (hseq.trans hseq'.symm)
      exact hoth (by rw [← htgt, hsame, htgt'])
    · cases hres

/-! ### One call -/

theorem nextCursorOf_spec (hhigh : high ≤ maxSequence L) {page rest : List TurnRow}
    (hspl : rowsBetween L path after high = page ++ rest) (hemp : page = [] → rest = []) :
    nextCursorOf K H L path (viewsOf page) high = .ok none ∧ rest = [] ∨
      ∃ last, page.getLast? = some last ∧ rest ≠ [] ∧ nextCursorOf K H L path (viewsOf page) high =
          .ok (some (encodeCursor (scopeOf H L path) last.sequence high)) := by
  rw [nextCursorOf, viewsOf, List.getLast?_map]
  cases hlast : page.getLast? with
  | none => exact .inl ⟨rfl, hemp (List.getLast?_eq_none_iff.mp hlast)⟩
  | some last =>
    have hmem : last ∈ rowsBetween L path after high := by
      rw [hspl]
      exact mem_append_left _ (mem_of_getLast? hlast)
    obtain ⟨hrow, -, -, hle⟩ := mem_rowsBetween.mp hmem
    have hseq : last.record.view.sequence = last.sequence := (hvalid.sound hrow).1.sequence
    have hbeh := rowsBetween_behind hvalid hspl hlast
    obtain ⟨more, hmore, hbeg, -, hnone⟩ := @pageTurns_spec K L path last.sequence high 1 hvalid hle hhigh
      ⟨Nat.le_refl _, by decide⟩
    rw [hbeh] at hbeg hnone
    rw [Option.map_some]
    dsimp only
    rw [hseq, hmore]
    by_cases hrest : rest = []
    · refine .inl ⟨?_, hrest⟩
      rw [hrest, viewsOf, map_nil, prefix_nil] at hbeg
      rw [hbeg]
      rfl
    · refine .inr ⟨last, rfl, hrest, ?_⟩
      have hne : ¬ more = [] := fun h => hrest (hnone h)
      change Except.ok (if more = [] then none else some _) = _
      rw [if_neg hne]

end

/-- What a call returns for the rows between two sequences. -/
structure PageOf (H : Host) (L : Ledger) (path : String) (after highWater : ℕ) (page : TurnPage)
    (shown rest : List TurnRow) : Prop where
  split : rowsBetween L path after highWater = shown ++ rest
  turns : page.turns = viewsOf shown
  nonempty : shown = [] → rest = []
  bytes : jsonBytes page.toJson ≤ maxPageResponseBytes
  cursor : page.nextCursor = none ∧ rest = [] ∨ ∃ last, shown.getLast? = some last ∧ rest ≠ [] ∧
    page.nextCursor = some (encodeCursor (scopeOf H L path) last.sequence highWater)

def ValidLimit (limit : Option ℕ) : Prop := ∀ n ∈ limit, 1 ≤ n ∧ n ≤ maxPageSize

/-- **One call** returns the first rows behind the cursor, and a cursor if there are more. -/
theorem listAgentTurns_spec (hvalid : Valid K L) (hpath : isAgentPath path = true)
    {limit : Option ℕ} (hlimit : ValidLimit limit) (hcur : validArguments cursor limit = true)
    (hbou : pageBounds K H L path cursor = .ok (after, high)) (haft : after ≤ high)
    (hhigh : high ≤ maxSequence L) : ∃ page shown rest, listAgentTurns K H L path cursor limit = .ok page ∧
      PageOf H L path after high page shown rest := by
  have hsize : 1 ≤ limit.getD defaultPageSize ∧ limit.getD defaultPageSize ≤ maxPageSize := by
    cases limit with
    | none => decide
    | some n => exact hlimit n rfl
  obtain ⟨turns, htns, hbeg, hbyt, hemp⟩ := @pageTurns_spec K L path after high _ hvalid haft hhigh hsize
  obtain ⟨shown, rest, hspl, rfl⟩ : ∃ shown rest, rowsBetween L path after high = shown ++ rest ∧
      turns = viewsOf shown := by
    refine ⟨(rowsBetween L path after high).take turns.length, _, (take_append_drop turns.length _).symm, ?_⟩
    rw [viewsOf, map_take]
    exact prefix_iff_eq_take.mp hbeg
  have hnone : shown = [] → rest = [] := by
    rintro rfl
    rw [hemp rfl] at hspl
    exact (append_eq_nil_iff.mp hspl.symm).2
  have hnext := @nextCursorOf_spec K L path after high H hvalid hhigh _ _ hspl hnone
  have hsafe := hvalid.maxSequence_safe
  obtain ⟨next, hnex, hissued, hcas⟩ : ∃ next, nextCursorOf K H L path (viewsOf shown) high = .ok next ∧
      (∀ text ∈ next, ∃ scope first second, first ≤ maxSafeInteger ∧ second ≤ maxSafeInteger ∧
        text = encodeCursor (H.sha256 scope) first second) ∧
      (next = none ∧ rest = [] ∨ ∃ last, shown.getLast? = some last ∧ rest ≠ [] ∧
        next = some (encodeCursor (scopeOf H L path) last.sequence high)) := by
    rcases hnext with ⟨hdone, hrest⟩ | ⟨last, hlast, hrest, hmore⟩
    · exact ⟨none, hdone, fun text htext => absurd htext.symm (Option.some_ne_none _), .inl ⟨rfl, hrest⟩⟩
    · refine ⟨_, hmore, fun text htext => ?_, .inr ⟨last, hlast, hrest, rfl⟩⟩
      have hmem : last ∈ rowsBetween L path after high := by
        rw [hspl]
        exact mem_append_left _ (mem_of_getLast? hlast)
      have hle := (mem_rowsBetween.mp hmem).2.2.2
      exact ⟨_, last.sequence, high, by omega, by omega, (Option.some_inj.mp htext).symm⟩
  have hsho : ¬ next.any (maxCursorLength < ·.toList.length) = true := by
    cases next with
    | none => exact Bool.false_ne_true
    | some text =>
      obtain ⟨scope, first, second, hfst, hsec, rfl⟩ := hissued text rfl
      have hlen := length_encodeCursor H scope hfst hsec
      rw [Option.any_some, decide_eq_true_eq, maxCursorLength]
      omega
  have hfits : jsonBytes (TurnPage.toJson ⟨path, L.coverage, viewsOf shown, next⟩) ≤ maxPageResponseBytes :=
    jsonBytes_page hpath hbyt hissued
  refine ⟨⟨path, L.coverage, viewsOf shown, next⟩, shown, rest, ?_, hspl, rfl, hnone, hfits, hcas⟩
  rw [listAgentTurns, failIf_bind (by rw [hcur]; exact Bool.true_eq_false.mp), hbou]
  change (pageTurns K L path after high _ >>= _) = _
  rw [htns]
  change (nextCursorOf K H L path (viewsOf shown) high >>= _) = _
  rw [hnex]
  change (failIf _ _ >>= _) = _
  rw [failIf_bind hsho, boundedResponse, failIf_bind (not_lt.mpr hfits)]
  rfl

/-! ### Following the cursors -/

theorem encodeCursor_ne_nil (scope : String) (after high : ℕ) : (encodeCursor scope after high).toList ≠ [] := by
  rw [encodeCursor, String.toList_ofList]
  intro hnil
  have hbyt := ofBase64url_base64url (utf8 (.ofChars
    (Standard.stringify (cursorValue scope after high)).toList))
  rw [hnil] at hbyt
  have hlen := length_utf8_ofChars (Standard.stringify (cursorValue scope after high)).toList
  rw [← hbyt] at hlen
  have hemp := String.utf8Len_eq_zero.mp hlen.symm
  rw [Standard.stringify, String.toList_ofList] at hemp
  exact cons_ne_nil _ _ hemp

theorem validArguments_encodeCursor (text : String) (haft : after ≤ maxSafeInteger)
    (hhigh : high ≤ maxSafeInteger) {limit : Option ℕ} (hlimit : ValidLimit limit) :
    validArguments (some (encodeCursor (H.sha256 text) after high)) limit = true := by
  have hlen := length_encodeCursor H text haft hhigh
  have hne := length_pos_iff.mpr (encodeCursor_ne_nil (H.sha256 text) after high)
  rw [validArguments, Bool.and_eq_true, Option.all_some, Bool.and_eq_true, Bool.and_eq_true, decide_eq_true_eq,
    decide_eq_true_eq, all_eq_true]
  refine ⟨⟨⟨hne, hlen.trans (by decide)⟩, fun c hc => ?_⟩, ?_⟩
  · rw [encodeCursor, String.toList_ofList] at hc
    exact decide_eq_true (base64url_mem _ c hc)
  · cases limit with
    | none => rfl
    | some n =>
      obtain ⟨hlow, hhigh⟩ := hlimit n rfl
      rw [Option.all_some, Bool.and_eq_true, decide_eq_true_eq, decide_eq_true_eq]
      exact ⟨hlow, hhigh⟩

theorem listAgentTurns_foreign (hvalid : Valid K L) (hpos : 1 ≤ after) (haft : after ≤ maxSequence L)
    {other scope : String} (hoth : other ≠ path)
    (hanc : ∃ row ∈ L.rows, row.sequence = after ∧ row.target = path) (limit : Option ℕ) :
    ∃ error, listAgentTurns K H L other (some (encodeCursor scope after high)) limit = .error error := by
  obtain ⟨error, herr⟩ := @readCursor_foreign K L path after high H hvalid hpos haft other scope hoth
    hanc
  cases hres : listAgentTurns K H L other (some (encodeCursor scope after high)) limit with
  | error error => exact ⟨error, rfl⟩
  | ok page =>
    rw [listAgentTurns] at hres
    obtain ⟨_, -, hres⟩ := bind_ok_iff.mp hres
    obtain ⟨bounds, hbou, -⟩ := bind_ok_iff.mp hres
    rw [pageBounds, herr] at hbou
    cases hbou

theorem Extends.row {L' : Ledger} (h : Extends L L') {row : TurnRow} (hrow : row ∈ L.rows) :
    ∃ row' ∈ L'.rows, row'.sequence = row.sequence ∧ row'.target = row.target := by
  obtain ⟨more, hkeys, -⟩ := h.keys
  have hmem : (row.sequence, row.target) ∈ History.keys L' := by
    rw [hkeys]
    exact mem_append_left _ (mem_map_of_mem hrow)
  obtain ⟨row', hrow', hkey⟩ := mem_map.mp hmem
  exact ⟨row', hrow', congrArg Prod.fst hkey, congrArg Prod.snd hkey⟩

/-- The pages of an agent from a cursor on; the `n`-th call is made in the `n`-th ledger. -/
inductive Follows (K : TurnChecks) (H : Host) (schedule : ℕ → Ledger) (path : String) (limit : Option ℕ) :
    ℕ → Option String → List TurnPage → Prop where
  | last {n : ℕ} {cursor : Option String} {page : TurnPage}
      (call : listAgentTurns K H (schedule n) path cursor limit = .ok page) (done : page.nextCursor = none) :
      Follows K H schedule path limit n cursor [page]
  | more {n : ℕ} {cursor : Option String} {page : TurnPage} {text : String} {pages : List TurnPage}
      (call : listAgentTurns K H (schedule n) path cursor limit = .ok page) (next : page.nextCursor = some text)
      (rest : Follows K H schedule path limit (n + 1) (some text) pages) :
      Follows K H schedule path limit n cursor (page :: pages)

/-- What holds of the page of a call: it is within its limit, its turns are those of the ledger at the call, and
its cursor is rejected for every other agent from then on. -/
structure SoundPage (K : TurnChecks) (H : Host) (schedule : ℕ → Ledger) (path : String) (n : ℕ)
    (page : TurnPage) : Prop where
  bytes : jsonBytes page.toJson ≤ maxPageResponseBytes
  current : ∀ view ∈ page.turns, ∃ row ∈ (schedule n).rows, row.target = path ∧ row.record.view = view
  foreign : ∀ text, page.nextCursor = some text → ∀ m, n ≤ m → ∀ other, other ≠ path → ∀ limit,
    ∃ error, listAgentTurns K H (schedule m) other (some text) limit = .error error

section
variable {schedule : ℕ → Ledger} {limit : Option ℕ}

section
variable (hcommits : ∀ n, Commits K (schedule n) (schedule (n + 1))) (hvalid : Valid K (schedule 0))
include hcommits hvalid

theorem schedule_spec : ∀ n, Valid K (schedule n) := by
  intro n
  induction n with
  | zero => exact hvalid
  | succ n ih => exact (commits_spec ih (hcommits n)).1

theorem schedule_extends {n m : ℕ} (h : n ≤ m) : Extends (schedule n) (schedule m) := by
  induction m, h using Nat.le_induction with
  | base => exact Extends.refl _
  | succ m _ ih => exact ih.trans (commits_spec (schedule_spec hcommits hvalid m) (hcommits m)).2

theorem soundPage_of_pageOf {n : ℕ} {shown rest : List TurnRow} (hhigh : high ≤ maxSequence (schedule n))
    (h : PageOf H (schedule n) path after high page shown rest) : SoundPage K H schedule path n page := by
  have hsh : ∀ row ∈ shown, row ∈ rowsBetween (schedule n) path after high := by
    intro row hrow
    rw [h.split]
    exact mem_append_left _ hrow
  refine ⟨h.bytes, fun view hview => ?_, fun text htext m hm other hoth limit => ?_⟩
  · rw [h.turns] at hview
    obtain ⟨row, hrow, rfl⟩ := mem_map.mp hview
    obtain ⟨hmem, htgt, -⟩ := mem_rowsBetween.mp (hsh row hrow)
    exact ⟨row, hmem, htgt, rfl⟩
  · rcases h.cursor with ⟨hnone, -⟩ | ⟨last, hlast, -, hnext⟩
    · rw [htext] at hnone
      exact absurd hnone (Option.some_ne_none _)
    · rw [htext, Option.some_inj] at hnext
      rw [hnext]
      obtain ⟨hmem, htgt, hlow, hle⟩ := mem_rowsBetween.mp (hsh last (mem_of_getLast? hlast))
      have hext := schedule_extends hcommits hvalid hm
      obtain ⟨row, hrow, hseq, htgt'⟩ := hext.row hmem
      have hmax := hext.maxSequence_le
      exact listAgentTurns_foreign (schedule_spec hcommits hvalid m) (by omega) (by omega) hoth
        ⟨row, hrow, hseq, htgt'.trans htgt⟩ limit

end

/-- The sequences of the turns of a target between two. -/
def sequencesBetween (L : Ledger) (target : String) (after highWater : ℕ) : List ℕ :=
  (rowsBetween L target after highWater).map (·.sequence)

/-- What following the cursors returns from a call on: the sequences, and sound pages that are not empty unless
there is nothing to return. -/
structure ExactFrom (K : TurnChecks) (H : Host) (schedule : ℕ → Ledger) (path : String) (n : ℕ)
    (sequences : List ℕ) (pages : List TurnPage) : Prop where
  order : (pages.flatMap (·.turns)).map (·.sequence) = sequences
  sound : ∀ i page, pages[i]? = some page → SoundPage K H schedule path (n + i) page
  nonempty : sequences ≠ [] → ∀ page ∈ pages, page.turns ≠ []
  single : sequences = [] → pages.length = 1

theorem sequences_viewsOf (hvalid : Valid K L) {rows : List TurnRow} (hrows : ∀ row ∈ rows, row ∈ L.rows) :
    (viewsOf rows).map (·.sequence) = rows.map (·.sequence) := by
  rw [viewsOf, map_map]
  exact map_congr_left fun row hrow => (hvalid.sound (hrows row hrow)).1.sequence

theorem exactFrom_last {n : ℕ} {sequences : List ℕ}
    (hsequ : page.turns.map (·.sequence) = sequences) (hsnd : SoundPage K H schedule path n page) :
    ExactFrom K H schedule path n sequences [page] := by
  refine ⟨?_, fun i found hi => ?_, fun hne found hfnd hnil => ?_, fun _ => rfl⟩
  · rw [flatMap_singleton, hsequ]
  · cases i with
    | zero => rwa [← Option.some_inj.mp hi]
    | succ i => exact absurd hi.symm (Option.some_ne_none _)
  · rw [mem_singleton.mp hfnd] at hnil
    rw [hnil] at hsequ
    exact hne hsequ.symm

theorem exactFrom_more {n : ℕ} {pages : List TurnPage} {first rest : List ℕ}
    (hsequ : page.turns.map (·.sequence) = first) (hfst : first ≠ []) (hrest : rest ≠ [])
    (hsnd : SoundPage K H schedule path n page) (h : ExactFrom K H schedule path (n + 1) rest pages) :
    ExactFrom K H schedule path n (first ++ rest) (page :: pages) := by
  refine ⟨?_, fun i found hi => ?_, fun _ => forall_mem_cons.mpr ⟨fun hnil => ?_, h.nonempty hrest⟩, fun hnil => ?_⟩
  · rw [flatMap_cons, map_append, hsequ, h.order]
  · cases i with
    | zero => rwa [← Option.some_inj.mp hi]
    | succ i =>
      have hidx : n + (i + 1) = n + 1 + i := by omega
      rw [hidx]
      exact h.sound i found hi
  · rw [hnil] at hsequ
    exact hfst hsequ.symm
  · exact absurd (append_eq_nil_iff.mp hnil).1 hfst

/-- **From a cursor on**: by induction on the turns that are left. -/
theorem follows_from (hcommits : ∀ n, Commits K (schedule n) (schedule (n + 1))) (hvalid : Valid K (schedule 0))
    (hpath : isAgentPath path = true) (hlimit : ValidLimit limit) {left n : ℕ}
    (hleft : (rowsBetween (schedule n) path after high).length ≤ left) (hcur : validArguments cursor limit = true)
    (hbou : pageBounds K H (schedule n) path cursor = .ok (after, high)) (haft : after ≤ high)
    (hhigh : high ≤ maxSequence (schedule n)) : ∃ pages, Follows K H schedule path limit n cursor pages ∧
      ExactFrom K H schedule path n (sequencesBetween (schedule n) path after high) pages := by
  induction left generalizing n after cursor with
  | zero =>
    have hval := schedule_spec hcommits hvalid n
    obtain ⟨page, shown, rest, hcall, hpage⟩ := listAgentTurns_spec hval hpath hlimit hcur hbou haft hhigh
    have hnil := length_eq_zero_iff.mp (Nat.le_zero.mp hleft)
    obtain ⟨hsh, hrest⟩ := append_eq_nil_iff.mp (hpage.split.symm.trans hnil)
    have hdone : page.nextCursor = none := by
      rcases hpage.cursor with ⟨hdone, -⟩ | ⟨_, -, hne, -⟩
      · exact hdone
      · exact absurd hrest hne
    refine ⟨[page], .last hcall hdone, exactFrom_last ?_ (soundPage_of_pageOf hcommits hvalid hhigh hpage)⟩
    rw [sequencesBetween, hnil, hpage.turns, hsh]
    rfl
  | succ left ih =>
    have hval := schedule_spec hcommits hvalid n
    obtain ⟨page, shown, rest, hcall, hpage⟩ := listAgentTurns_spec hval hpath hlimit hcur hbou haft hhigh
    have hsnd := soundPage_of_pageOf hcommits hvalid hhigh hpage
    have hmem : ∀ row ∈ shown, row ∈ rowsBetween (schedule n) path after high := by
      intro row hrow
      rw [hpage.split]
      exact mem_append_left _ hrow
    have htns : page.turns.map (·.sequence) = shown.map (·.sequence) := by
      rw [hpage.turns]
      exact sequences_viewsOf hval fun row hrow => (mem_rowsBetween.mp (hmem row hrow)).1
    rcases hpage.cursor with ⟨hdone, hrest⟩ | ⟨last, hlast, hrest, hnext⟩
    · refine ⟨[page], .last hcall hdone, exactFrom_last ?_ hsnd⟩
      rw [sequencesBetween, hpage.split, hrest, append_nil, htns]
    · -- the next call: the later ledger has the same rows below the mark
      obtain ⟨hrow, htgt, hlow, hle⟩ := mem_rowsBetween.mp (hmem last (mem_of_getLast? hlast))
      have hext := schedule_extends hcommits hvalid (Nat.le_add_right n 1)
      have hvali := schedule_spec hcommits hvalid (n + 1)
      have hhig := hhigh.trans hext.maxSequence_le
      obtain ⟨row, hrow', hseq, htgt'⟩ := hext.row hrow
      have hread := @readCursor_encodeCursor K (schedule (n + 1)) path last.sequence high H hvali (by omega)
        hle hhig ⟨row, hrow', hseq, htgt'.trans htgt⟩
      have hsco : scopeOf H (schedule (n + 1)) path = scopeOf H (schedule n) path := by
        rw [scopeOf, scopeOf, hext.root]
      rw [hsco] at hread
      have hsame : sequencesBetween (schedule (n + 1)) path last.sequence high = rest.map (·.sequence) := by
        rw [sequencesBetween, rowsBetween_of_extends hext hhigh, rowsBetween_behind hval hpage.split hlast]
      have hpos : 0 < shown.length := length_pos_of_mem (mem_of_getLast? hlast)
      have hfewer : (rowsBetween (schedule (n + 1)) path last.sequence high).length ≤ left := by
        have hlen := congrArg List.length hsame
        rw [sequencesBetween, length_map, length_map] at hlen
        rw [hpage.split, length_append] at hleft
        omega
      have hsafe := (schedule_spec hcommits hvalid n).maxSequence_safe
      have harg := @validArguments_encodeCursor last.sequence high H
        (Standard.stringify (.arr [.str (schedule n).rootSessionId, .str path])) (by omega) (by omega) limit hlimit
      obtain ⟨pages, hfol, hex⟩ := ih hfewer harg hread hle hhig
      refine ⟨page :: pages, .more hcall hnext hfol, ?_⟩
      rw [hsame] at hex
      rw [sequencesBetween, hpage.split, map_append]
      refine exactFrom_more htns ?_ ?_ hsnd hex
      · rw [Ne, map_eq_nil_iff]
        exact ne_nil_of_length_pos hpos
      · rwa [Ne, map_eq_nil_iff]

def sequencesOf (L : Ledger) (target : String) : List ℕ := (L.rows.filter (·.target = target)).map (·.sequence)

theorem sequencesBetween_all (hvalid : Valid K L) :
    sequencesBetween L target 0 (maxSequence L) = sequencesOf L target := by
  rw [sequencesBetween, sequencesOf, rowsBetween]
  refine congrArg _ (filter_congr fun row hrow => ?_)
  obtain ⟨hidx, hsnd⟩ := hvalid.sound hrow
  have hpos : 0 < row.sequence := by
    rw [← hidx.sequence]
    exact hsnd.positive
  have hle := le_maxSequence hrow
  simp [hpos, hle]

end

end

def sampleTurn (target turnId : String) (sequence : ℕ) : TurnRecord where
  rootSessionId := "s"
  view := { target, turnId, sequence, status := "completed", historyCoverage := .complete, taskPreview := "" }

def sampleLedger : Ledger where
  rootSessionId := "s"
  coverage := .complete
  rows := [rowOf (sampleTurn "/root/a" "t" 1), rowOf (sampleTurn "/root/b" "t" 2), rowOf (sampleTurn "/root/a" "u" 4)]

def sampleChecks : TurnChecks := ⟨fun _ => true, fun _ => true, fun _ => .ok (), fun _ => true⟩

/-- A turn is added between the first call and the second. -/
def sampleSchedule (n : ℕ) : Ledger :=
  if n = 0 then sampleLedger
  else { sampleLedger with rows := sampleLedger.rows ++ [rowOf (sampleTurn "/root/a" "v" 5)] }

theorem sampleSchedule_commits (n : ℕ) : Commits sampleChecks (sampleSchedule n) (sampleSchedule (n + 1)) := by
  by_cases hn : n = 0
  · have hwri : addTurn sampleChecks (sampleSchedule 0) (sampleTurn "/root/a" "v" 0) = .ok (sampleSchedule 1) := by
      decide +kernel
    rw [hn]
    exact .single (.add (sampleTurn "/root/a" "v" 0) (by decide) hwri)
  · have hsame : sampleSchedule n = sampleSchedule (n + 1) := by
      rw [sampleSchedule, if_neg hn, sampleSchedule, if_neg (Nat.succ_ne_zero n)]
    rw [← hsame]
    exact .refl

noncomputable def sampleHost : Host where
  sha256 _ := .ofList (List.replicate 64 '0')
  length_sha256 _ := by rw [String.toList_ofList, length_replicate]
  hexadecimal text c hc := by
    rw [String.toList_ofList] at hc
    rw [eq_of_mem_replicate hc]
    exact .inl rfl
  parse := JsonText.printed.parse
  parse_stringify := JsonText.printed.parse_stringify

end History
end EasyPi.Subagent
