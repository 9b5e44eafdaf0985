import Linglong.Box.Filesystem
import Linglong.Framework.Separator
import Linglong.Repo.Migrate

/-! # The Normal Form of Paths

    `util::fs::path` keeps the components of a string and writes them back
    with a slash before each. The loops of `str_spilt` and `str_vec_join` do
    what `strSpilt` and `strVecJoin` say, whatever separators a string has at
    its ends or repeated.

    1. The loops of the source (`spiltFrom_eq`, `joinLoop_eq`).
    2. Components, without a loop (`components_iff`).
    3. Paths: writing and reading again, `operator/`.
-/

namespace Linglong

namespace Box

open Framework
open Migrate (find)

/-! ## Section 1: The loops -/

/-- `std::string::substr`, which throws beyond the end. -/
def substr (s : List Char) (pos n : Nat) : Option (List Char) :=
  if pos ≤ s.length then some ((s.drop pos).take n) else none

/-- `vec.push_back(t)`, unless `t` is empty. -/
def pushBack (vec : List (List Char)) (t : List Char) : List (List Char) :=
  if t = [] then vec else vec ++ [t]

/-- What `find` finds is a separator, and there is none between. -/
theorem find_eq_some {s : List Char} {sep : Char} {pos posEnd : Nat}
    (h : find s sep pos = some posEnd) :
    pos ≤ posEnd ∧ posEnd < s.length ∧ sep ∉ (s.drop pos).take (posEnd - pos) ∧
      s.drop pos = (s.drop pos).take (posEnd - pos) ++ sep :: s.drop (posEnd + 1) := by
  obtain ⟨hmem, hpos⟩ := Option.ite_none_right_eq_some.1 h
  cases hpos
  rw [Nat.add_sub_cancel_left]
  have hlt : (s.drop pos).idxOf sep < s.length - pos := by
    rw [← List.length_drop]
    exact List.idxOf_lt_length_of_mem hmem
  refine ⟨by omega, by omega, ?_, ?_⟩
  · rw [take_idxOf]
    intro hbefore
    simpa using List.mem_takeWhile_imp hbefore
  · have hdrop : s.drop (pos + (s.drop pos).idxOf sep + 1) =
        (s.drop pos).drop ((s.drop pos).idxOf sep + 1) := by rw [List.drop_drop, Nat.add_assoc]
    have hcons : (s.drop pos).drop ((s.drop pos).idxOf sep) =
        sep :: (s.drop pos).drop ((s.drop pos).idxOf sep + 1) := by
      rw [List.drop_eq_getElem_cons (List.idxOf_lt_length_of_mem hmem), List.getElem_idxOf]
    rw [hdrop, ← hcons, List.take_append_drop]

theorem find_eq_none {s : List Char} {sep : Char} {pos : Nat} (h : find s sep pos = none) :
    sep ∉ s.drop pos := by
  intro hmem
  rw [find, if_pos hmem] at h
  cases h

/-- The loop of `str_spilt`, from `pos_begin` on. -/
def spiltFrom (s : List Char) (sep : Char) (vec : List (List Char)) (posBegin : Nat) :
    Option (List (List Char)) :=
  match _h : find s sep posBegin with
  | some posEnd =>
      match substr s posBegin (posEnd - posBegin) with
      | some t => spiltFrom s sep (pushBack vec t) (posEnd + 1)
      | none => none
  | none =>
      match substr s posBegin (s.length - posBegin) with
      | some t => some (pushBack vec t)
      | none => none
termination_by s.length - posBegin
decreasing_by
  obtain ⟨hle, hlt, -⟩ := find_eq_some _h
  omega

theorem pushBack_eq {sep : Char} {t : List Char} (h : sep ∉ t) (vec : List (List Char)) :
    pushBack vec t = vec ++ parts sep t := by
  unfold pushBack
  by_cases ht : t = []
  · rw [if_pos ht, ht, parts_nil, List.append_nil]
  · rw [if_neg ht, parts_of_not_mem ht h]

/-- The loop ends and does not throw; what it has not yet seen decides what
    it appends. -/
theorem spiltFrom_eq (s : List Char) (sep : Char) (vec : List (List Char)) (posBegin : Nat)
    (h : posBegin ≤ s.length) :
    spiltFrom s sep vec posBegin = some (vec ++ parts sep (s.drop posBegin)) := by
  induction hn : s.length - posBegin using Nat.strongRecOn generalizing vec posBegin with
  | ind n ih =>
    rw [spiltFrom]
    split
    · rename_i posEnd hfind
      obtain ⟨hle, hlt, hsep, hdrop⟩ := find_eq_some hfind
      simp only [substr, if_pos h]
      rw [ih _ (by omega) _ _ (by omega) rfl, pushBack_eq hsep, List.append_assoc]
      rw [← parts_append_cons, ← hdrop]
    · rename_i hfind
      have hall : (s.drop posBegin).take (s.length - posBegin) = s.drop posBegin :=
        List.take_of_length_le (by simp)
      simp only [substr, if_pos h, hall]
      rw [pushBack_eq (find_eq_none hfind)]

/-- **Splitting**: `str_spilt` returns the parts that are not empty. -/
theorem spiltFrom_strSpilt (s : String) (sep : Char) :
    spiltFrom s.toList sep [] 0 = some ((strSpilt s sep).map String.toList) := by
  rw [spiltFrom_eq _ _ _ _ (Nat.zero_le _), strSpilt, List.map_map]
  have hid : (String.toList ∘ String.ofList) = id := by
    funext t
    exact String.toList_ofList
  rw [hid, List.map_id]
  rfl

/-- The loop of `str_vec_join`: a separator after each but the last. -/
def joinLoop (vec : List String) (sep : Char) : String :=
  if vec = [] then ""
  else vec.dropLast.foldl (fun s t => s ++ (t ++ String.singleton sep)) "" ++ vec.getLastD ""

/-- **Joining**: `str_vec_join` puts a separator between two elements. -/
theorem joinLoop_eq (vec : List String) (sep : Char) : joinLoop vec sep = strVecJoin vec sep := by
  -- the text that is there already stays in front
  have hfront : ∀ (vec : List String) (s : String), vec ≠ [] →
      vec.dropLast.foldl (fun s t => s ++ (t ++ String.singleton sep)) s ++ vec.getLastD "" =
        s ++ strVecJoin vec sep := by
    intro vec
    induction vec with
    | nil => exact fun s h => absurd rfl h
    | cons t vec ih =>
      intro s _
      cases vec with
      | nil => simp [strVecJoin]
      | cons next vec =>
        have hrest := ih (s ++ (t ++ String.singleton sep)) (by simp)
        rw [List.dropLast_cons_cons, List.foldl_cons, List.getLastD_cons, List.getLastD_cons]
        rw [List.getLastD_cons] at hrest
        rw [hrest]
        simp [strVecJoin, String.append_assoc]
  unfold joinLoop
  by_cases hvec : vec = []
  · rw [if_pos hvec, hvec]
    simp [strVecJoin]
  · rw [if_neg hvec, hfront vec "" hvec, String.empty_append]

/-! ## Section 2: Components -/

/-- The components of a text: names that are not empty and have no slash in
    them, with at least one slash between two of them. -/
inductive Components : List Char → List (List Char) → Prop where
  | nil : Components [] []
  | slash {text : List Char} {names : List (List Char)} (h : Components text names) :
      Components ('/' :: text) names
  | last {name : List Char} (hne : name ≠ []) (hslash : '/' ∉ name) : Components name [name]
  | cons {name text : List Char} {names : List (List Char)} (hne : name ≠ [])
      (hslash : '/' ∉ name) (h : Components text names) :
      Components (name ++ '/' :: text) (name :: names)

theorem Components.parts_eq {text : List Char} {names : List (List Char)}
    (h : Components text names) : parts '/' text = names := by
  induction h with
  | nil => exact parts_nil
  | slash h ih => rw [parts_cons, ih]
  | last hne hslash => exact parts_of_not_mem hne hslash
  | cons hne hslash h ih =>
    rw [parts_append_cons, parts_of_not_mem hne hslash, ih]
    rfl

/-- Every text has components: what is before its first slash is empty or a
    name. -/
theorem components_parts (text : List Char) : Components text (parts '/' text) := by
  induction hn : text.length using Nat.strongRecOn generalizing text with
  | ind n ih =>
    by_cases hslash : '/' ∈ text
    · obtain ⟨name, rest, rfl, hname⟩ := List.eq_append_cons_of_mem hslash
      rw [List.length_append, List.length_cons] at hn
      have hrest := ih rest.length (by omega) rest rfl
      by_cases hne : name = []
      · rw [hne, List.nil_append, parts_cons]
        exact .slash hrest
      · rw [parts_append_cons, parts_of_not_mem hne hname]
        exact .cons hne hname hrest
    · by_cases hne : text = []
      · rw [hne, parts_nil]
        exact .nil
      · rw [parts_of_not_mem hne hslash]
        exact .last hne hslash

theorem components_iff {text : List Char} {names : List (List Char)} :
    Components text names ↔ parts '/' text = names :=
  ⟨Components.parts_eq, fun h => h ▸ components_parts text⟩

/-! ## Section 3: Paths -/

namespace Path

theorem toList_p_new (s : String) : (new s).p.map String.toList = parts '/' s.toList := by
  have hloop := spiltFrom_strSpilt s '/'
  rw [spiltFrom_eq _ _ _ _ (Nat.zero_le _)] at hloop
  exact (Option.some.inj hloop).symm

/-- A path that is made from a string is determined by the names in it. -/
theorem new_eq_iff {s s' : String} : new s = new s' ↔ parts '/' s.toList = parts '/' s'.toList := by
  rw [← toList_p_new, ← toList_p_new]
  constructor
  · intro h
    rw [h]
  · intro h
    have hp := List.map_injective_iff.2 (fun _ _ => String.toList_inj.1) h
    exact congrArg (Path.mk "") hp

theorem toList_string (s : String) :
    (new s).string.toList = '/' :: ['/'].intercalate (parts '/' s.toList) := by
  rw [string, strVecJoin, String.toList_append, String.toList_intercalate, toList_p_new]
  simp

/-- **Reading again**: the names in the string of a path. -/
theorem parts_string (s : String) : parts '/' (new s).string.toList = parts '/' s.toList := by
  rw [toList_string, parts_cons, parts_intercalate fun _ => mem_parts]

/-- **Appending**: a slash between the strings. -/
theorem append_new (a b : String) : (new a).append (new b) = new (a ++ "/" ++ b) := by
  have hp : ∀ s, (new s).p = (parts '/' s.toList).map String.ofList := fun _ => rfl
  have happend : (new a).p ++ (new b).p = (new (a ++ "/" ++ b)).p := by
    have htext : (a ++ "/" ++ b).toList = a.toList ++ '/' :: b.toList := by simp
    rw [hp, hp, hp, htext, parts_append_cons, List.map_append]
  exact congrArg (Path.mk "") happend

/-- **Normal form**: a path is what its string is read as; appending paths is
    putting a slash between their strings; the string is a slash and the
    components with a slash between them, so that it does not change when it
    is read and written again. The path and the string are those of the loops
    of the source. -/
theorem string_normal_form (a b : String) :
    spiltFrom a.toList '/' [] 0 = some ((new a).p.map String.toList) ∧
    (new a).string = "/" ++ joinLoop (new a).p '/' ∧
    new (new a).string = new a ∧
    (new a).append (new b) = new (a ++ "/" ++ b) ∧
    (∃ names, (∀ names', Components a.toList names' ↔ names = names') ∧
      (new a).string.toList = '/' :: ['/'].intercalate names) ∧
    (new (new a).string).string = (new a).string := by
  have hread : new (new a).string = new a := new_eq_iff.2 (parts_string a)
  have hjoin : (new a).string = "/" ++ joinLoop (new a).p '/' := by
    rw [joinLoop_eq]
    rfl
  exact ⟨spiltFrom_strSpilt a '/', hjoin, hread, append_new a b,
    ⟨_, fun _ => components_iff, toList_string a⟩, by rw [hread]⟩

example : (new "//usr///lib/").string = "/usr/lib" ∧ (new "").string = "/" := by
  decide +kernel

end Path

end Box

end Linglong
