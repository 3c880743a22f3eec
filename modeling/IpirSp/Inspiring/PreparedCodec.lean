import IpirSp.Codec.Canonical
import IpirSp.Inspiring.Prepared
import IpirSp.Inspiring.Usable

/-!
# The codec of the prepared packing state

`write` lists the words of a file (`writePrepared_eq`), `read` takes them back (`reads_artefact`)
and takes nothing else (`consumes_artefact`).  So the strings that `read` accepts are the files of
state with the shapes of the parameters, each of the length that the parameters give, and every word
of an accepted string is what its place asks for: `IsFile.wordAt_header`, `IsFile.wordAt_residue`
and `IsFile.not_badTable`.

`prepared_codec` says it in both directions, for state that was built and for strings that are read.
-/

namespace Inspiring

open Negacyclic SpiralRs Loops MachineWord Codec

/-! ## What is written -/

section Written

variable {P : RlweParams} {blocks : List (QueryPackPreprocessed P)} {top : TopKeyImages P}

theorem residueBytes_append {q : ℕ} (ws ws' : List (Fin q)) :
    residueBytes (ws ++ ws') = residueBytes ws ++ residueBytes ws' := by
  rw [residueBytes, List.map_append, List.flatMap_append]
  rfl

theorem residueBytes_flatMap {α : Type} {q : ℕ} (f : α → List (Fin q)) (l : List α) :
    residueBytes (l.flatMap f) = l.flatMap fun a => residueBytes (f a) := by
  induction l with
  | nil => rfl
  | cons a l ih => rw [List.flatMap_cons, residueBytes_append, ih, List.flatMap_cons]

theorem writePoly_ok {m : PolyMatrixNTT P.d P.q} {rows cols : ℕ}
    (h : m.rows = rows ∧ m.cols = cols) :
    writePoly m rows cols = .ok (residueBytes (asSlice m)) := by
  rw [writePoly, if_neg (by simp [h.1, h.2])]

theorem writeBlock_ok {B : QueryPackPreprocessed P} (hlen : B.digitsNtt.length = P.d - 1)
    (hshape : ∀ m ∈ B.digitsNtt, m.rows = P.gadget.ell ∧ m.cols = 1) :
    writeBlock B = .ok (residueBytes (blockResidues B)) := by
  rw [writeBlock, if_neg (not_not.mpr hlen), mapM_eq_ok fun m hm => writePoly_ok (hshape m hm),
    ok_bind, blockResidues, residueBytes_append, residueBytes_flatMap, List.flatMap_def]
  rfl

theorem writeTable_ok (table : NttAutomorphTable P.d) :
    writeTable table = .ok ((tableWords table).flatMap (leBytes 8)) := by
  rw [writeTable, if_neg (not_not.mpr (validatePermutation_entries table))]
  rfl

/-- Images of the right shapes pass their check. -/
theorem Shaped.validate_ok (h : Shaped blocks top) : top.validate = .ok () := by
  have hleft (m : PolyMatrixNTT P.d P.q) (hm : m ∈ top.kgTopLeft) : BodyShape m P.gadget.ell :=
    h.images_shape m (List.mem_append_left _ (List.mem_append_left _ hm))
  have hright (m : PolyMatrixNTT P.d P.q) (hm : m ∈ top.kgTopRight) : BodyShape m P.gadget.ell :=
    h.images_shape m (List.mem_append_left _ (List.mem_append_right _ hm))
  have hkh : BodyShape top.khTop P.gadget.ell :=
    h.images_shape _ (List.mem_append_right _ (List.mem_singleton_self _))
  rw [TopKeyImages.validate, if_neg (not_not.mpr h.left_length),
    if_neg (not_not.mpr h.right_length), if_neg (not_not.mpr h.leftTables_length),
    if_neg (not_not.mpr h.rightTables_length), validateReferenceBody_ok hkh, ok_bind,
    validateTopImages_ok "left" hleft, ok_bind, validateTopImages_ok "right" hright]

theorem topValid_ok (h : Shaped blocks top) : topValid top = .ok () := by
  rw [topValid, h.validate_ok]

/-- **State of the right shapes is written.** -/
theorem writePrepared_eq (h : Shaped blocks top) :
    writePrepared P blocks top = .ok (artefactBytes blocks top) := by
  rw [writePrepared, topValid_ok h, ok_bind,
    mapM_eq_ok fun B hB => writeBlock_ok (h.digits_length B hB) (h.digits_shape B hB), ok_bind,
    mapM_eq_ok fun m hm => writePoly_ok (h.images_shape m hm), ok_bind,
    mapM_eq_ok fun table _ => writeTable_ok table, ok_bind, artefactBytes, artefactWords,
    List.flatMap_append, List.flatMap_append]
  have hresidues : ((fileResidues blocks top).map Fin.val).flatMap (leBytes 8) =
      (blocks.map fun B => residueBytes (blockResidues B)).flatten ++
        (top.images.map fun m => residueBytes (asSlice m)).flatten := by
    rw [← List.flatMap_def, ← List.flatMap_def, ← residueBytes_flatMap, ← residueBytes_flatMap,
      ← residueBytes_append]
    rfl
  have htables : (top.tables.flatMap tableWords).flatMap (leBytes 8) =
      (top.tables.map fun table => (tableWords table).flatMap (leBytes 8)).flatten := by
    rw [← List.flatMap_def, List.flatMap_assoc]
  rw [hresidues, htables]
  simp only [List.append_assoc]
  rfl

end Written

/-! ## What is read -/

section Reads

variable {P : RlweParams}

theorem reads_residue (start : ℕ) (w : Fin P.q) :
    Reads (readResidue P) start (leBytes 8 w) w := by
  have hlt : (w : ℕ) < 256 ^ 8 := w.isLt.trans (P.spiral.modulus_lt.trans_eq (by norm_num))
  refine (reads_word eof start hlt).last ?_
  rw [dif_pos w.isLt]
  exact Reads.pure w _

theorem reads_residues (start : ℕ) (ws : List (Fin P.q)) :
    Reads (times (readResidue P) ws.length) start (residueBytes ws) ws := by
  have hread := reads_times (p := readResidue P) (fun w : Fin P.q => leBytes 8 w) id
    (fun _ => True) ws (fun w _ start _ => reads_residue start w) (fun _ _ _ _ => trivial) start
    trivial
  rw [List.map_id] at hread
  rwa [residueBytes, List.flatMap_map]

/-- The matrix that is read back. -/
def normal (m : PolyMatrixNTT P.d P.q) : PolyMatrixNTT P.d P.q :=
  ofSlice m.rows m.cols (asSlice m)

theorem reads_poly {m : PolyMatrixNTT P.d P.q} {rows cols : ℕ} (h : m.rows = rows ∧ m.cols = cols)
    (start : ℕ) : Reads (readPoly P rows cols) start (residueBytes (asSlice m)) (normal m) := by
  obtain ⟨rfl, rfl⟩ := h
  have hread := reads_residues start (asSlice m)
  rw [length_asSlice] at hread
  exact hread.last (Reads.pure _ _)

theorem reads_polys {ms : List (PolyMatrixNTT P.d P.q)} {rows cols n : ℕ} (hlen : ms.length = n)
    (h : ∀ m ∈ ms, m.rows = rows ∧ m.cols = cols) (start : ℕ) :
    Reads (times (readPoly P rows cols) n) start (residueBytes (ms.flatMap asSlice))
      (ms.map normal) := by
  subst hlen
  rw [residueBytes_flatMap]
  exact reads_times (fun m => residueBytes (asSlice m)) normal (fun _ => True) ms
    (fun m hm start _ => reads_poly (h m hm) start) (fun _ _ _ _ => trivial) start trivial

/-- The block that is read back. -/
def normalBlock (B : QueryPackPreprocessed P) : QueryPackPreprocessed P :=
  ⟨B.collapseAFinalNtt, B.digitsNtt.map normal⟩

theorem reads_block {B : QueryPackPreprocessed P} (hlen : B.digitsNtt.length = P.d - 1)
    (hshape : ∀ m ∈ B.digitsNtt, m.rows = P.gadget.ell ∧ m.cols = 1) (start : ℕ) :
    Reads (readBlock P) start (residueBytes (blockResidues B)) (normalBlock B) := by
  have hone : asSlice (⟨1, 1, fun _ _ => B.collapseAFinalNtt⟩ : PolyMatrixNTT P.d P.q) =
      nttResidues B.collapseAFinalNtt := List.append_nil _
  have hfirst := reads_poly (m := ⟨1, 1, fun _ _ => B.collapseAFinalNtt⟩) ⟨rfl, rfl⟩ start
  rw [hone] at hfirst
  rw [blockResidues, residueBytes_append]
  refine hfirst.bind ((reads_polys hlen hshape _).last ?_)
  have hback : (normal (⟨1, 1, fun _ _ => B.collapseAFinalNtt⟩ : PolyMatrixNTT P.d P.q)).poly 0 0 =
      B.collapseAFinalNtt := ((same_ofSlice _).poly 0 one_pos 0 one_pos).symm
  rw [hback]
  exact Reads.pure _ _

theorem reads_index {n : ℕ} (h : n < 2 ^ 32) (start : ℕ) : Reads readIndex start (leBytes 8 n) n :=
  (reads_word eof start (h.trans (by norm_num))).last
    ((reads_require h _).skip (Reads.pure n _))

theorem fromPrepared_entries (table : NttAutomorphTable P.d) :
    NttAutomorphTable.fromPrepared P.d table.exponent table.entries = some table := by
  rw [NttAutomorphTable.fromPrepared, dif_pos (validatePermutation_entries table)]
  refine congrArg some (NttAutomorphTable.ext rfl fun s => Fin.ext ?_)
  simp [NttAutomorphTable.entries]

theorem reads_table {table : NttAutomorphTable P.d} (hexp : table.exponent < 2 * P.d)
    (hodd : table.exponent % 2 = 1) (hword : table.exponent < 256 ^ 8)
    (hentry : ∀ s, (table.indices s : ℕ) < 2 ^ 32) (start : ℕ) :
    Reads (readTable P) start ((tableWords table).flatMap (leBytes 8)) table := by
  rw [tableWords, List.flatMap_cons]
  refine (reads_word eof start hword).bind ?_
  refine (reads_require (by omega) _).skip ?_
  have hindices := reads_times (p := readIndex) (leBytes 8) id (fun _ => True) table.entries
    (fun n hn start _ => by
      obtain ⟨s, rfl⟩ := (List.mem_ofFn' _ _).mp hn
      exact reads_index (hentry s) start)
    (fun _ _ _ _ => trivial) (start + (leBytes 8 table.exponent).length) trivial
  rw [List.map_id, NttAutomorphTable.entries, List.length_ofFn] at hindices
  refine hindices.last ?_
  have hback := fromPrepared_entries table
  rw [NttAutomorphTable.entries] at hback
  rw [hback]
  exact Reads.pure table _

theorem reads_checks (ns : List ℕ) (h : ∀ n ∈ ns, n < 256 ^ 8) (start : ℕ) :
    Reads (ns.forM fun n => do
      let word ← word eof
      require invalid (word = n)) start (ns.flatMap (leBytes 8)) () := by
  induction ns generalizing start with
  | nil => exact Reads.pure () start
  | cons n ns ih =>
      obtain ⟨hn, hns⟩ := List.forall_mem_cons.mp h
      rw [List.flatMap_cons]
      refine Reads.bind ((reads_word eof start hn).last (reads_require rfl _)) ?_
      exact ih hns _

theorem reads_header {blocks : ℕ} (h : ∀ n ∈ header P blocks, n < 256 ^ 8) (start : ℕ) :
    Reads (readHeader P blocks) start (MAGIC ++ (header P blocks).flatMap (leBytes 8)) () :=
  (reads_take eof start MAGIC).bind ((reads_require rfl _).skip (reads_checks _ h _))

/-- The images that are read back. -/
def normalTop (top : TopKeyImages P) : TopKeyImages P :=
  ⟨top.kgTopLeft.map normal, top.kgTopRight.map normal, normal top.khTop, top.kgBodyLeftTables,
    top.kgBodyRightTables⟩

variable {blocks : List (QueryPackPreprocessed P)} {top : TopKeyImages P}

theorem Shaped.normal (h : Shaped blocks top) :
    Shaped (blocks.map normalBlock) (normalTop top) where
  digits_length B hB := by
    obtain ⟨B', hB', rfl⟩ := List.mem_map.mp hB
    rw [normalBlock, List.length_map, h.digits_length B' hB']
  digits_shape B hB m hm := by
    obtain ⟨B', hB', rfl⟩ := List.mem_map.mp hB
    obtain ⟨m', hm', rfl⟩ := List.mem_map.mp hm
    exact h.digits_shape B' hB' m' hm'
  left_length := by rw [normalTop, List.length_map, h.left_length]
  right_length := by rw [normalTop, List.length_map, h.right_length]
  images_shape m hm := by
    have himages : (normalTop top).images = top.images.map Inspiring.normal := by
      simp [TopKeyImages.images, normalTop]
    rw [himages] at hm
    obtain ⟨m', hm', rfl⟩ := List.mem_map.mp hm
    exact h.images_shape m' hm'
  leftTables_length := h.leftTables_length
  rightTables_length := h.rightTables_length

/-- The sections of a file. -/
theorem artefactBytes_eq : artefactBytes blocks top =
    (MAGIC ++ (header P blocks.length).flatMap (leBytes 8)) ++
      ((blocks.flatMap fun B => residueBytes (blockResidues B)) ++
        (residueBytes (top.kgTopLeft.flatMap asSlice) ++
          (residueBytes (top.kgTopRight.flatMap asSlice) ++ (residueBytes (asSlice top.khTop) ++
            ((top.kgBodyLeftTables.flatMap fun table => (tableWords table).flatMap (leBytes 8)) ++
              (top.kgBodyRightTables.flatMap fun table =>
                (tableWords table).flatMap (leBytes 8))))))) := by
  have hresidues : ((fileResidues blocks top).map Fin.val).flatMap (leBytes 8) =
      (blocks.flatMap fun B => residueBytes (blockResidues B)) ++
        (residueBytes (top.kgTopLeft.flatMap asSlice) ++
          (residueBytes (top.kgTopRight.flatMap asSlice) ++ residueBytes (asSlice top.khTop))) := by
    show residueBytes (fileResidues blocks top) = _
    simp only [fileResidues, TopKeyImages.images, List.flatMap_append, List.flatMap_singleton,
      residueBytes_append, residueBytes_flatMap, List.append_assoc]
  rw [artefactBytes, artefactWords, List.flatMap_append, List.flatMap_append, hresidues,
    List.flatMap_assoc, TopKeyImages.tables, List.flatMap_append]
  simp only [List.append_assoc]

/-- **A file is read back.** -/
theorem reads_artefact (h : Shaped blocks top) (htables : Tabled top)
    (hheader : ∀ w ∈ header P blocks.length, w < 256 ^ 8) (start : ℕ) :
    Reads (readArtefact P blocks.length) start (artefactBytes blocks top)
      (blocks.map normalBlock, normalTop top) := by
  have htable (table : NttAutomorphTable P.d) (hmem : table ∈ top.tables) (start : ℕ) :
      Reads (readTable P) start ((tableWords table).flatMap (leBytes 8)) table :=
    reads_table (htables.exponent_lt table hmem) (htables.exponent_odd table hmem)
      (htables.exponent_word table hmem) (htables.entry_lt table hmem) start
  have hside {tables : List (NttAutomorphTable P.d)} (hcount : tables.length = P.d / 2 - 1)
      (hmem : ∀ table ∈ tables, table ∈ top.tables) (start : ℕ) :
      Reads (times (readTable P) (P.d / 2 - 1)) start
        (tables.flatMap fun table => (tableWords table).flatMap (leBytes 8)) tables := by
    have hread := reads_times (p := readTable P)
      (fun table => (tableWords table).flatMap (leBytes 8)) id (fun _ => True) tables
      (fun table ht start _ => htable table (hmem table ht) start) (fun _ _ _ _ => trivial) start
      trivial
    rwa [List.map_id, hcount] at hread
  rw [artefactBytes_eq]
  refine (reads_header hheader start).bind ?_
  refine Reads.bind (a := blocks.map normalBlock) ?_ ?_
  · exact reads_times (fun B => residueBytes (blockResidues B)) normalBlock (fun _ => True) blocks
      (fun B hB start _ => reads_block (h.digits_length B hB) (h.digits_shape B hB) start)
      (fun _ _ _ _ => trivial) _ trivial
  refine (reads_polys h.left_length (fun m hm => h.images_shape m
    (List.mem_append_left _ (List.mem_append_left _ hm))) _).bind ?_
  refine (reads_polys h.right_length (fun m hm => h.images_shape m
    (List.mem_append_left _ (List.mem_append_right _ hm))) _).bind ?_
  refine (reads_poly (h.images_shape _ (List.mem_append_right _ (List.mem_singleton_self _)))
    _).bind ?_
  refine (hside h.leftTables_length (fun table ht => List.mem_append_left _ ht) _).bind ?_
  refine (hside h.rightTables_length (fun table ht => List.mem_append_right _ ht) _).last ?_
  exact (reads_call (topValid_ok h.normal) _).skip (Reads.pure _ _)

end Reads

/-! ## What is accepted -/

section Accepted

variable (P : RlweParams)

theorem consumes_residue :
    Consumes (readResidue P) fun w bytes => bytes = leBytes 8 w ∧ True := by
  refine (consumes_word eof).bind ?_
  rintro n bytes ⟨rfl, -⟩
  split
  · exact Consumes.pure ⟨List.append_nil _, trivial⟩
  · exact Consumes.throw invalid

theorem consumes_poly (rows cols : ℕ) : Consumes (readPoly P rows cols) fun m bytes =>
    bytes = residueBytes (asSlice m) ∧ (m.rows = rows ∧ m.cols = cols) := by
  refine (consumes_times (fun w : Fin P.q => leBytes 8 w) (fun _ => True) (consumes_residue P)
    _).bind ?_
  rintro ws bytes ⟨rfl, hlen, -⟩
  refine Consumes.pure ⟨?_, rfl, rfl⟩
  rw [asSlice_ofSlice hlen, residueBytes, List.flatMap_map, List.append_nil]

theorem consumes_polys (rows cols n : ℕ) : Consumes (times (readPoly P rows cols) n) fun ms bytes =>
    bytes = residueBytes (ms.flatMap asSlice) ∧ ms.length = n ∧
      ∀ m ∈ ms, m.rows = rows ∧ m.cols = cols := by
  refine (consumes_times (fun m => residueBytes (asSlice m)) _ (consumes_poly P rows cols) n).mono
    ?_
  rintro ms bytes ⟨rfl, hlen, hshape⟩
  exact ⟨(residueBytes_flatMap _ _).symm, hlen, hshape⟩

theorem consumes_block : Consumes (readBlock P) fun B bytes =>
    bytes = residueBytes (blockResidues B) ∧ (B.digitsNtt.length = P.d - 1 ∧
      ∀ m ∈ B.digitsNtt, m.rows = P.gadget.ell ∧ m.cols = 1) := by
  refine (consumes_poly P 1 1).bind ?_
  rintro m bytes ⟨rfl, hrows, hcols⟩
  refine (consumes_polys P P.gadget.ell 1 (P.d - 1)).bind ?_
  rintro digits more ⟨rfl, hlen, hshape⟩
  refine Consumes.pure ⟨?_, hlen, hshape⟩
  have hone : asSlice m = nttResidues (m.poly 0 0) := by
    rw [asSlice, hrows, hcols]
    exact List.append_nil _
  rw [blockResidues, residueBytes_append, hone, List.append_nil]

theorem fromPrepared_eq_some {d exponent : ℕ} {indices : List ℕ} {table : NttAutomorphTable d}
    (h : NttAutomorphTable.fromPrepared d exponent indices = some table) :
    table.exponent = exponent ∧ table.entries = indices := by
  unfold NttAutomorphTable.fromPrepared at h
  split at h
  · next hvalid =>
    have hlen := ((validatePermutation_iff indices d).mp hvalid).1
    cases h
    refine ⟨rfl, List.ext_getElem (by rw [NttAutomorphTable.entries, List.length_ofFn, hlen]) ?_⟩
    intro i hi hi'
    simp [NttAutomorphTable.entries]
  · cases h

theorem consumes_index :
    Consumes readIndex fun n bytes => bytes = leBytes 8 n ∧ n < 2 ^ 32 := by
  refine (consumes_word eof).bind ?_
  rintro n bytes ⟨rfl, -⟩
  refine (consumes_require invalid _).bind ?_
  rintro - more ⟨rfl, hlt⟩
  exact Consumes.pure ⟨by rw [List.append_nil, List.append_nil], hlt⟩

theorem consumes_table : Consumes (readTable P) fun table bytes =>
    bytes = (tableWords table).flatMap (leBytes 8) ∧ (table.exponent < 2 * P.d ∧
      table.exponent % 2 = 1 ∧ table.exponent < 256 ^ 8 ∧
        ∀ s, (table.indices s : ℕ) < 2 ^ 32) := by
  refine (consumes_word eof).bind ?_
  rintro exponent bytes ⟨rfl, hword⟩
  refine (consumes_require invalid _).bind ?_
  rintro - more ⟨rfl, hexp⟩
  refine (consumes_times (leBytes 8) (fun n => n < 2 ^ 32) consumes_index P.d).bind ?_
  rintro indices more ⟨rfl, -, hindices⟩
  split
  · next table htable =>
    obtain ⟨rfl, rfl⟩ := fromPrepared_eq_some htable
    refine Consumes.pure ⟨?_, by omega, by omega, hword, fun s => hindices _ ?_⟩
    · rw [List.nil_append, List.append_nil, tableWords, List.flatMap_cons]
    · exact (List.mem_ofFn' _ _).mpr ⟨s, rfl⟩
  · exact Consumes.throw invalid

theorem consumes_checks (ns : List ℕ) : Consumes (ns.forM fun n => do
    let word ← word eof
    require invalid (word = n)) fun _ bytes =>
      bytes = ns.flatMap (leBytes 8) ∧ ∀ n ∈ ns, n < 256 ^ 8 := by
  induction ns with
  | nil => exact Consumes.pure ⟨rfl, fun n hn => absurd hn List.not_mem_nil⟩
  | cons n ns ih =>
      refine Consumes.bind (R := fun _ bytes => bytes = leBytes 8 n ∧ n < 256 ^ 8) ?_ ?_
      · refine (consumes_word eof).bind ?_
        rintro w bytes ⟨rfl, hw⟩
        refine (consumes_require invalid _).mono ?_
        rintro - more ⟨rfl, rfl⟩
        exact ⟨List.append_nil _, hw⟩
      · rintro - bytes ⟨rfl, hn⟩
        refine ih.mono ?_
        rintro - more ⟨rfl, hns⟩
        exact ⟨(List.flatMap_cons ..).symm, List.forall_mem_cons.mpr ⟨hn, hns⟩⟩

theorem consumes_header (blocks : ℕ) : Consumes (readHeader P blocks) fun _ bytes =>
    bytes = MAGIC ++ (header P blocks).flatMap (leBytes 8) ∧
      ∀ n ∈ header P blocks, n < 256 ^ 8 := by
  refine (consumes_take eof 16).bind ?_
  rintro magic bytes ⟨rfl, -⟩
  refine (consumes_require invalid _).bind ?_
  rintro - more ⟨rfl, rfl⟩
  refine (consumes_checks _).mono ?_
  rintro - more ⟨rfl, hheader⟩
  exact ⟨rfl, hheader⟩

/-- What `read` accepts and what it returns. -/
structure IsFile (n : ℕ) (blocks : List (QueryPackPreprocessed P)) (top : TopKeyImages P)
    (bytes : List UInt8) : Prop where
  bytes_eq : bytes = artefactBytes blocks top
  length_eq : blocks.length = n
  shaped : Shaped blocks top
  tabled : Tabled top
  header_lt : ∀ w ∈ header P n, w < 256 ^ 8

/-- **Only files are accepted.** -/
theorem consumes_artefact (n : ℕ) :
    Consumes (readArtefact P n) fun out bytes => IsFile P n out.1 out.2 bytes := by
  have htables (count : ℕ) := consumes_times _ _ (consumes_table P) count
  refine (consumes_header P n).bind ?_
  rintro - head ⟨rfl, hheader⟩
  refine (consumes_times _ _ (consumes_block P) n).bind ?_
  rintro blocks _ ⟨rfl, rfl, hblocks⟩
  refine (consumes_polys P 1 P.gadget.ell (P.d / 2 - 1)).bind ?_
  rintro left _ ⟨rfl, hleft, hleftShape⟩
  refine (consumes_polys P 1 P.gadget.ell (P.d / 2 - 1)).bind ?_
  rintro right _ ⟨rfl, hright, hrightShape⟩
  refine (consumes_poly P 1 P.gadget.ell).bind ?_
  rintro kh _ ⟨rfl, hkh⟩
  refine (htables (P.d / 2 - 1)).bind ?_
  rintro leftTables _ ⟨rfl, hleftTables, hleftGood⟩
  refine (htables (P.d / 2 - 1)).bind ?_
  rintro rightTables _ ⟨rfl, hrightTables, hrightGood⟩
  refine (consumes_call _).bind ?_
  rintro - _ ⟨rfl, -⟩
  have hgood (table : NttAutomorphTable P.d) (ht : table ∈ leftTables ++ rightTables) :
      table.exponent < 2 * P.d ∧ table.exponent % 2 = 1 ∧ table.exponent < 256 ^ 8 ∧
        ∀ s, (table.indices s : ℕ) < 2 ^ 32 := by
    rcases List.mem_append.mp ht with ht | ht
    · exact hleftGood table ht
    · exact hrightGood table ht
  refine Consumes.pure ⟨?_, rfl, ⟨fun B hB => (hblocks B hB).1, fun B hB => (hblocks B hB).2, hleft,
    hright, fun m hm => ?_, hleftTables, hrightTables⟩, ⟨fun t ht => (hgood t ht).1,
    fun t ht => (hgood t ht).2.1, fun t ht => (hgood t ht).2.2.1, fun t ht => (hgood t ht).2.2.2⟩,
    hheader⟩
  · rw [artefactBytes_eq]
    simp only [List.append_assoc, List.append_nil]
  · rcases List.mem_append.mp hm with hm | hm
    · rcases List.mem_append.mp hm with hm | hm
      · exact hleftShape m hm
      · exact hrightShape m hm
    · obtain rfl := List.mem_singleton.mp hm
      exact hkh

end Accepted

/-! ## What is refused -/

section Refused

/-- An error is returned. -/
def Rejected {α : Type} (out : IoResult α) : Prop := ∃ e, out = .error (.err e)

/-- An error that is returned, and not a panic. -/
def Returned (f : Failure IoError) : Prop := ∃ e, f = .err e

theorem returned_eof : Returned eof := ⟨_, rfl⟩

theorem returned_invalid : Returned invalid := ⟨_, rfl⟩

variable (P : RlweParams)

theorem failsWith_residue : FailsWith Returned (readResidue P) := by
  refine (failsWith_word returned_eof).bind fun n => ?_
  split
  · exact FailsWith.pure _
  · exact FailsWith.throw returned_invalid

theorem failsWith_poly (rows cols : ℕ) : FailsWith Returned (readPoly P rows cols) :=
  ((failsWith_residue P).times _).bind fun _ => FailsWith.pure _

theorem failsWith_table : FailsWith Returned (readTable P) := by
  have hindex : FailsWith Returned readIndex := (failsWith_word returned_eof).bind fun n =>
    (failsWith_require returned_invalid _).bind fun _ => FailsWith.pure n
  refine (failsWith_word returned_eof).bind fun exponent => ?_
  refine (failsWith_require returned_invalid _).bind fun _ => ?_
  refine (hindex.times _).bind fun indices => ?_
  split
  · exact FailsWith.pure _
  · exact FailsWith.throw returned_invalid

theorem failsWith_header (blocks : ℕ) : FailsWith Returned (readHeader P blocks) := by
  have hchecks (ns : List ℕ) : FailsWith Returned (ns.forM fun n => do
      let word ← word eof
      require invalid (word = n)) := by
    induction ns with
    | nil => exact FailsWith.pure ()
    | cons n ns ih =>
        exact FailsWith.bind ((failsWith_word returned_eof).bind fun _ =>
          failsWith_require returned_invalid _) fun _ => ih
  exact (failsWith_take returned_eof 16).bind fun _ =>
    (failsWith_require returned_invalid _).bind fun _ => hchecks _

theorem topValid_returned (top : TopKeyImages P) (f : Failure IoError)
    (h : topValid top = .error f) : Returned f := by
  unfold topValid at h
  split at h
  · cases h
  · cases h
    exact returned_invalid
  · next msg hpanic => exact absurd hpanic (noPanic_topValidate top msg)

/-- **The reader does not panic.** -/
theorem failsWith_artefact (blocks : ℕ) : FailsWith Returned (readArtefact P blocks) := by
  have hblock : FailsWith Returned (readBlock P) := (failsWith_poly P 1 1).bind fun _ =>
    ((failsWith_poly P _ 1).times _).bind fun _ => FailsWith.pure _
  have himages := (failsWith_poly P 1 P.gadget.ell).times (P.d / 2 - 1)
  have htables := (failsWith_table P).times (P.d / 2 - 1)
  refine (failsWith_header P blocks).bind fun _ => (hblock.times blocks).bind fun _ => ?_
  refine himages.bind fun _ => himages.bind fun _ => (failsWith_poly P 1 _).bind fun _ => ?_
  refine htables.bind fun _ => htables.bind fun _ => ?_
  exact (failsWith_call (topValid_returned P _)).bind fun _ => FailsWith.pure _

variable {P} {n : ℕ} {bytes : List UInt8}

/-- Whatever is not a file is refused. -/
theorem rejected_of_not_file (h : ∀ blocks top, ¬IsFile P n blocks top bytes) :
    Rejected (readPrepared P n bytes) := by
  rcases hrun : readPrepared P n bytes with f | ⟨blocks, top⟩
  · obtain ⟨e, rfl⟩ := (failsWith_artefact P n).run returned_invalid 0 bytes hrun
    exact ⟨e, rfl⟩
  · exact absurd ((consumes_artefact P n).run hrun) (h blocks top)

variable {blocks : List (QueryPackPreprocessed P)} {top : TopKeyImages P}

theorem IsFile.length_bytes (h : IsFile P n blocks top bytes) :
    bytes.length = artefactLen P n := by
  rw [h.bytes_eq, h.shaped.length_artefactBytes, h.length_eq]

/-- The words of a file where they stand. -/
theorem IsFile.wordAt_eq (h : IsFile P n blocks top bytes) {i w : ℕ}
    (hw : (artefactWords blocks top)[i]? = some w) : wordAt bytes 16 i = w := by
  obtain ⟨hi, rfl⟩ := List.getElem?_eq_some_iff.mp hw
  rw [h.bytes_eq]
  exact wordAt_words (artefactWords_lt (h.length_eq.symm ▸ h.header_lt) h.tabled) hi

theorem IsFile.wordAt_header (h : IsFile P n blocks top bytes) {i w : ℕ}
    (hw : (header P n)[i]? = some w) : wordAt bytes 16 i = w := by
  obtain ⟨hi, -⟩ := List.getElem?_eq_some_iff.mp hw
  refine h.wordAt_eq ?_
  rw [artefactWords, h.length_eq, List.getElem?_append_left hi, hw]

theorem IsFile.wordAt_residue (h : IsFile P n blocks top bytes) {i : ℕ}
    (hi : i < P.d * polyCount P n) : wordAt bytes 16 (8 + i) < P.q := by
  have hlen := h.shaped.length_fileResidues
  rw [h.length_eq] at hlen
  have hget : i < ((fileResidues blocks top).map Fin.val).length := by
    rw [List.length_map, hlen]
    exact hi
  have hword : wordAt bytes 16 (8 + i) = ((fileResidues blocks top).map Fin.val)[i] := by
    refine h.wordAt_eq ?_
    have hheader : (header P blocks.length).length = 8 := rfl
    rw [artefactWords, List.getElem?_append_right (by rw [hheader]; omega), hheader,
      Nat.add_sub_cancel_left, List.getElem?_append_left hget, List.getElem?_eq_getElem hget]
  rw [hword, List.getElem_map]
  exact Fin.isLt _

/-- Word `j` of the `t`-th table of a file. -/
def tableWordAt (P : RlweParams) (n : ℕ) (bytes : List UInt8) (t j : ℕ) : ℕ :=
  wordAt bytes 16 (8 + P.d * polyCount P n + (t * (P.d + 1) + j))

theorem IsFile.tableWordAt_eq (h : IsFile P n blocks top bytes) {t : ℕ} (ht : t < top.tables.length)
    {j w : ℕ} (hw : (tableWords top.tables[t])[j]? = some w) : tableWordAt P n bytes t j = w := by
  refine h.wordAt_eq ?_
  have hheader : (header P blocks.length).length = 8 := rfl
  have hlen := h.shaped.length_fileResidues
  rw [h.length_eq] at hlen
  have hj : j < P.d + 1 := by
    obtain ⟨hj, -⟩ := List.getElem?_eq_some_iff.mp hw
    rwa [length_tableWords] at hj
  have hwords : ∀ ws ∈ top.tables.map tableWords, ws.length = P.d + 1 := fun ws hws => by
    obtain ⟨table, -, rfl⟩ := List.mem_map.mp hws
    exact length_tableWords table
  have hpiece := take_drop_flatten hwords (i := t) (by rwa [List.length_map])
  rw [List.getElem_map] at hpiece
  rw [← hpiece, List.getElem?_take_of_lt hj, List.getElem?_drop] at hw
  rw [artefactWords, List.getElem?_append_right (by rw [hheader]; omega), hheader,
    List.getElem?_append_right (by rw [List.length_map, hlen]; omega), List.length_map, hlen,
    List.flatMap_def]
  rw [← hw]
  congr 1
  omega

/-- A table with an exponent that is none, or with entries that are no permutation. -/
def BadTable (P : RlweParams) (n : ℕ) (bytes : List UInt8) (t : ℕ) : Prop :=
  2 * P.d ≤ tableWordAt P n bytes t 0 ∨ tableWordAt P n bytes t 0 % 2 = 0 ∨
    (∃ j < P.d, P.d ≤ tableWordAt P n bytes t (j + 1)) ∨
      ∃ j < P.d, ∃ j' < P.d, j ≠ j' ∧
        tableWordAt P n bytes t (j + 1) = tableWordAt P n bytes t (j' + 1)

theorem IsFile.not_badTable (h : IsFile P n blocks top bytes) {t : ℕ} (ht : t < P.d - 2) :
    ¬BadTable P n bytes t := by
  have htables : t < top.tables.length := by rwa [h.shaped.length_tables]
  have hmem : top.tables[t] ∈ top.tables := List.getElem_mem htables
  have hexp : tableWordAt P n bytes t 0 = top.tables[t].exponent := h.tableWordAt_eq htables rfl
  have hentry {j : ℕ} (hj : j < P.d) :
      tableWordAt P n bytes t (j + 1) = top.tables[t].indices ⟨j, hj⟩ := by
    refine h.tableWordAt_eq htables ?_
    rw [tableWords, List.getElem?_cons_succ, NttAutomorphTable.entries, List.getElem?_ofFn,
      dif_pos hj]
  rintro (hlarge | heven | ⟨j, hj, hlarge⟩ | ⟨j, hj, j', hj', hne, heq⟩)
  · rw [hexp] at hlarge
    exact absurd (h.tabled.exponent_lt _ hmem) (not_lt.mpr hlarge)
  · rw [hexp, h.tabled.exponent_odd _ hmem] at heven
    cases heven
  · rw [hentry hj] at hlarge
    exact absurd (Fin.isLt _) (not_lt.mpr hlarge)
  · rw [hentry hj, hentry hj'] at heq
    have hsame := top.tables[t].bijective.injective (Fin.ext heq)
    exact hne (Fin.mk.inj hsame)

end Refused

/-! ## The codec -/

section Codec

variable {P : RlweParams} {blocks : List (QueryPackPreprocessed P)} {top : TopKeyImages P}

/-- Blocks with the same component and the same digits. -/
structure SameBlock (B B' : QueryPackPreprocessed P) : Prop where
  collapseAFinalNtt : B.collapseAFinalNtt = B'.collapseAFinalNtt
  digitsNtt : List.Forall₂ Same B.digitsNtt B'.digitsNtt

/-- Images with the same entries, and the same tables. -/
structure SameImages (top top' : TopKeyImages P) : Prop where
  kgTopLeft : List.Forall₂ Same top.kgTopLeft top'.kgTopLeft
  kgTopRight : List.Forall₂ Same top.kgTopRight top'.kgTopRight
  khTop : Same top.khTop top'.khTop
  kgBodyLeftTables : top.kgBodyLeftTables = top'.kgBodyLeftTables
  kgBodyRightTables : top.kgBodyRightTables = top'.kgBodyRightTables

theorem forall₂_map_self {α β : Type} {R : α → β → Prop} {f : α → β} (h : ∀ a, R a (f a))
    (l : List α) : List.Forall₂ R l (l.map f) := by
  rw [List.forall₂_map_right_iff, List.forall₂_same]
  exact fun a _ => h a

theorem sameBlock_normalBlock (B : QueryPackPreprocessed P) : SameBlock B (normalBlock B) :=
  ⟨rfl, forall₂_map_self same_ofSlice B.digitsNtt⟩

theorem sameImages_normalTop (top : TopKeyImages P) : SameImages top (normalTop top) :=
  ⟨forall₂_map_self same_ofSlice _, forall₂_map_self same_ofSlice _, same_ofSlice _, rfl, rfl⟩

/-- Built blocks have the shapes of the parameters. -/
theorem build_shape (hsep : ProbesSeparate P) {crs : PolyMatrixNTT P.d P.q}
    {B : QueryPackPreprocessed P} (hB : QueryPackPreprocessed.build P crs = .ok B) :
    B.digitsNtt.length = P.d - 1 ∧ ∀ m ∈ B.digitsNtt, m.rows = P.gadget.ell ∧ m.cols = 1 := by
  have hfit : DigitsFit P := by
    by_contra hnot
    by_cases hshape : crs.rows = P.d ∧ crs.cols = 1
    · rw [queryBuild_panic_of_not_fit hsep hnot hshape] at hB
      cases hB
    · rw [QueryPackPreprocessed.build, PackPublicPreprocessed.build,
        if_pos (not_and_or.mp hshape)] at hB
      cases hB
  rcases build_cases hsep hfit crs with ⟨e, -, hbuild⟩ | ⟨aHat, -, hbuild⟩
  · rw [hbuild] at hB
    cases hB
  · rw [hbuild] at hB
    cases hB
    exact ⟨length_blockDigits _ _, fun m hm => blockDigits_shape _ _ hm⟩

/-- **Built state has the shapes of the parameters.** -/
theorem shaped_of_build (htop : TopKeyImages.build P = .ok top)
    (hblocks : ∀ B ∈ blocks, ∃ crs, QueryPackPreprocessed.build P crs = .ok B) :
    Shaped blocks top := by
  obtain ⟨hsep, -, hleft, hright, hkh⟩ := topImages_fields htop
  obtain ⟨top', htop', hvalid, -, -⟩ := topImages_build hsep
  obtain rfl : top' = top := Except.ok.inj (htop'.symm.trans htop)
  have hshape (B : QueryPackPreprocessed P) (hB : B ∈ blocks) :
      B.digitsNtt.length = P.d - 1 ∧ ∀ m ∈ B.digitsNtt, m.rows = P.gadget.ell ∧ m.cols = 1 := by
    obtain ⟨crs, hbuild⟩ := hblocks B hB
    exact build_shape hsep hbuild
  refine ⟨fun B hB => (hshape B hB).1, fun B hB => (hshape B hB).2, ?_, ?_, fun m hm => ?_,
    (tables_of_validate hvalid).1, (tables_of_validate hvalid).2⟩
  · rw [hleft, List.length_map, leftTables, List.length_map, List.length_range']
  · rw [hright, List.length_map, rightTables, List.length_map, List.length_range']
  · rw [TopKeyImages.images, hleft, hright, hkh, List.mem_append, List.mem_append, List.mem_map,
      List.mem_map, List.mem_singleton] at hm
    rcases hm with (⟨table, -, rfl⟩ | ⟨table, -, rfl⟩) | rfl <;> exact ⟨rfl, rfl⟩

/-- **Built tables are written as words** if the file has a length. -/
theorem tabled_of_build (htop : TopKeyImages.build P = .ok top) {n : ℕ}
    (hlen : artefactLen P n < 2 ^ 64) : Tabled top := by
  obtain ⟨hsep, -⟩ := topImages_fields htop
  obtain ⟨top', htop', -, hleft, hright⟩ := topImages_build hsep
  obtain rfl : top' = top := Except.ok.inj (htop'.symm.trans htop)
  have hd := d_lt_of_len hlen
  have hexp (table : NttAutomorphTable P.d) (ht : table ∈ top'.tables) :
      table.exponent < 2 * P.d ∧ table.exponent % 2 = 1 := by
    rw [TopKeyImages.tables, hleft, hright, List.mem_append, leftTables, rightTables, List.mem_map,
      List.mem_map] at ht
    rcases ht with ⟨j, -, rfl⟩ | ⟨j, -, rfl⟩
    · rw [tauTable_exponent]
      exact ⟨leftExp_lt P.d_pos j, Nat.odd_iff.mp (odd_leftExp P.d j)⟩
    · rw [tauTable_exponent]
      exact ⟨rightExp_lt P.d_pos j, Nat.odd_iff.mp (odd_rightExp P.d_pos j)⟩
  refine ⟨fun t ht => (hexp t ht).1, fun t ht => (hexp t ht).2, fun t ht => ?_, fun t _ s => ?_⟩
  · have := (hexp t ht).1
    norm_num
    omega
  · have := (t.indices s).isLt
    omega

/-- A string of the wrong length, with a wrong start or a wrong parameter, with a word that is no
residue where a residue stands, or with a bad table. -/
def Malformed (P : RlweParams) (n : ℕ) (bytes : List UInt8) : Prop :=
  bytes.length ≠ artefactLen P n ∨ bytes.take 16 ≠ MAGIC ∨
    (∃ i w, (header P n)[i]? = some w ∧ wordAt bytes 16 i ≠ w) ∨
      (∃ i < P.d * polyCount P n, P.q ≤ wordAt bytes 16 (8 + i)) ∨
        ∃ t < P.d - 2, BadTable P n bytes t

theorem IsFile.not_malformed {n : ℕ} {bytes : List UInt8} (h : IsFile P n blocks top bytes) :
    ¬Malformed P n bytes := by
  rintro (hlen | hmagic | ⟨i, w, hw, hne⟩ | ⟨i, hi, hlarge⟩ | ⟨t, ht, hbad⟩)
  · exact hlen h.length_bytes
  · rw [h.bytes_eq] at hmagic
    exact hmagic (List.take_left' rfl)
  · exact hne (h.wordAt_header hw)
  · exact absurd (h.wordAt_residue hi) (not_lt.mpr hlarge)
  · exact h.not_badTable ht hbad

/-- **The codec of the prepared state.**  What was built is written, and, if the file is one that
fits into memory, has the computed length and is read back; what is read is written again as it was;
and malformed strings are refused. -/
theorem prepared_codec (P : RlweParams) :
    (∀ (blocks : List (QueryPackPreprocessed P)) (top : TopKeyImages P),
      TopKeyImages.build P = .ok top →
      (∀ B ∈ blocks, ∃ crs, QueryPackPreprocessed.build P crs = .ok B) →
      ∃ bytes, writePrepared P blocks top = .ok bytes ∧ (bytes.length < 2 ^ 64 →
        (∀ o, encodedLen o P blocks.length = .ok bytes.length) ∧
          ∃ blocks' top', readPrepared P blocks.length bytes = .ok (blocks', top') ∧
            List.Forall₂ SameBlock blocks blocks' ∧ SameImages top top')) ∧
    (∀ (n : ℕ) (bytes : List UInt8) (blocks : List (QueryPackPreprocessed P))
      (top : TopKeyImages P),
      readPrepared P n bytes = .ok (blocks, top) →
      writePrepared P blocks top = .ok bytes ∧ blocks.length = n ∧
        (bytes.length < 2 ^ 64 → ∀ o, encodedLen o P n = .ok bytes.length)) ∧
    ∀ (n : ℕ) (bytes : List UInt8), Malformed P n bytes → Rejected (readPrepared P n bytes) := by
  refine ⟨fun blocks top htop hblocks => ?_, fun n bytes blocks top hread => ?_,
    fun n bytes hbad => ?_⟩
  · have hshaped := shaped_of_build htop hblocks
    refine ⟨_, writePrepared_eq hshaped, fun hlen => ?_⟩
    rw [hshaped.length_artefactBytes] at hlen ⊢
    refine ⟨fun o => encodedLen_ok o hlen, _, _, run_eq_ok (reads_artefact hshaped
      (tabled_of_build htop hlen) (header_lt hlen) 0), ?_, sameImages_normalTop top⟩
    exact forall₂_map_self sameBlock_normalBlock blocks
  · have hfile := (consumes_artefact P n).run hread
    refine ⟨?_, hfile.length_eq, fun hlen o => ?_⟩
    · rw [writePrepared_eq hfile.shaped]
      exact congrArg Except.ok hfile.bytes_eq.symm
    · rw [hfile.length_bytes] at hlen ⊢
      exact encodedLen_ok o hlen
  · exact rejected_of_not_file fun blocks top hfile => hfile.not_malformed hbad

/-- A block of the small parameter set survives, and a file of another length does not. -/
theorem prepared_codec_small : ∃ (B : QueryPackPreprocessed smallParams)
    (top : TopKeyImages smallParams) (bytes : List UInt8),
    writePrepared smallParams [B] top = .ok bytes ∧
      (∃ out, readPrepared smallParams 1 bytes = .ok out) ∧
        Rejected (readPrepared smallParams 1 []) := by
  obtain ⟨top, htop, -⟩ := topImages_build probesSeparate_smallParams
  obtain ⟨B, hbuild⟩ : ∃ B, QueryPackPreprocessed.build smallParams
      (crsOfRows smallParams fun k i => (5 * k + i) % 17) = .ok B := by
    obtain ⟨aHat, hbuild, -⟩ := queryBuild_eq probesSeparate_smallParams (by decide)
      (fun _ _ => Nat.mod_lt _ (by decide) : ∀ k i, (fun (k i : Fin smallParams.d) =>
        (5 * (k : ℕ) + i) % 17) k i < smallParams.q)
    exact ⟨_, hbuild⟩
  have hblocks (B' : QueryPackPreprocessed smallParams) (hB : B' ∈ [B]) :
      ∃ crs, QueryPackPreprocessed.build smallParams crs = .ok B' :=
    ⟨_, List.mem_singleton.mp hB ▸ hbuild⟩
  obtain ⟨hbuilt, -, hmalformed⟩ := prepared_codec smallParams
  obtain ⟨bytes, hwrite, hback⟩ := hbuilt [B] top htop hblocks
  have hlen : bytes.length = artefactLen smallParams 1 := by
    have hsame := Except.ok.inj
      (hwrite.symm.trans (writePrepared_eq (shaped_of_build htop hblocks)))
    rw [hsame, (shaped_of_build htop hblocks).length_artefactBytes]
    rfl
  obtain ⟨-, blocks', top', hread, -⟩ := hback (by rw [hlen]; decide)
  exact ⟨B, top, bytes, hwrite, ⟨_, hread⟩, hmalformed 1 [] (Or.inl (by decide))⟩

end Codec

end Inspiring
