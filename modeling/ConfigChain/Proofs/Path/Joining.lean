import ConfigChain.Proofs.Path.Canonical

/-! # Joining paths

A path counts from a place, and `Place.follow` is the place it then leads to. `join` computes just this
on texts without backslashes, so its laws are those of following. -/

namespace ConfigChain.Path

/-! ## Following a place from another one -/

/-- Where one stands. -/
def Place.here : Place := ⟨false, 0, []⟩

/-- The place that `q` means when it counts from `base`. -/
def Place.follow (base q : Place) : Place :=
  if q.rooted then q else q.route.foldl Place.move base

theorem Place.follow_rooted (base : Place) {q : Place} (h : q.rooted = true) : base.follow q = q := by
  simp [follow, h]

theorem Place.follow_unrooted (base : Place) {q : Place} (h : q.rooted = false) :
    base.follow q = q.route.foldl Place.move base := by
  simp [follow, h]

theorem Place.Regular.here_follow {q : Place} (hq : q.Regular) : Place.here.follow q = q := by
  cases hr : q.rooted with
  | true => exact Place.follow_rooted _ hr
  | false =>
      rw [Place.follow_unrooted _ hr]
      have h := hq.foldl_route
      rwa [hr] at h

theorem Place.Regular.follow {base q : Place} (hb : base.Regular) (hq : q.Regular) :
    (base.follow q).Regular := by
  unfold Place.follow
  split
  · exact hq
  · exact hb.foldl_move fun _ => hq.slash_not_mem_route

theorem Place.rooted_follow (base q : Place) : (base.follow q).rooted = (q.rooted || base.rooted) := by
  cases hr : q.rooted with
  | true => simp [follow_rooted _ hr, hr]
  | false =>
      rw [follow_unrooted _ hr, rooted_foldl]
      rfl

/-- Climbing leaves the names behind first; a place that has none left, and is not rooted, climbs on. -/
theorem Place.foldl_ups (k : Nat) (p : Place) :
    (List.replicate k ['.', '.']).foldl Place.move p =
      ⟨p.rooted, if p.rooted then p.climbs else p.climbs + (k - p.names.length), p.names.drop k⟩ := by
  induction k generalizing p with
  | zero => simp
  | succ k ih =>
      rw [List.replicate_succ, List.foldl_cons, ih]
      cases hn : p.names with
      | cons name outer => simp [p.move_up_cons hn]
      | nil =>
          cases hr : p.rooted with
          | true => simp [p.move_up_root hn hr, hn, hr]
          | false => simp [p.move_up_nil hn hr, hn, hr, Nat.add_right_comm, Nat.add_assoc]

/-- Where a place that is not rooted leads: its climbs leave names of `base` behind, then its names follow. -/
theorem Place.Regular.follow_eq {q : Place} (hq : q.Regular) (hr : q.rooted = false) (base : Place) :
    base.follow q = ⟨base.rooted,
      if base.rooted then base.climbs else base.climbs + (q.climbs - base.names.length),
      q.names ++ base.names.drop q.climbs⟩ := by
  rw [Place.follow_unrooted _ hr, route, List.foldl_append, Place.foldl_ups,
    foldl_move_names fun n hn => hq.names n (List.mem_reverse.mp hn), List.reverse_reverse]

/-- One more piece after a route is one more move from wherever the route was taken. -/
theorem Place.Regular.foldl_route_move {q : Place} (hq : q.Regular) (hr : q.rooted = false)
    {piece : List Char} (h : '/' ∉ piece) (base : Place) :
    (q.move piece).route.foldl Place.move base = (q.route.foldl Place.move base).move piece := by
  obtain ⟨rooted, climbs, names⟩ := q
  subst hr
  rcases piece_cases h with hstay | rfl | hname
  · rw [Place.move_stay _ hstay, Place.move_stay _ hstay]
  · cases names with
    | nil =>
        simp [Place.move_up_nil, route, List.replicate_succ', List.foldl_append]
    | cons name outer =>
        have hname : IsName name := hq.names name List.mem_cons_self
        rw [Place.move_up_cons (⟨false, climbs, name :: outer⟩ : Place) rfl]
        simp only [route, List.reverse_cons, ← List.append_assoc, List.foldl_append, List.foldl_cons,
          List.foldl_nil, Place.move_name_up _ hname]
  · simp [Place.move_name _ hname, route, List.foldl_append]

/-- Moving on from a place, and following the place thus reached, is moving on from where it leads. -/
theorem Place.Regular.foldl_route_foldl {q : Place} (hq : q.Regular) (hr : q.rooted = false)
    {ps : List (List Char)} (h : ∀ piece ∈ ps, '/' ∉ piece) (base : Place) :
    (ps.foldl Place.move q).route.foldl Place.move base =
      ps.foldl Place.move (q.route.foldl Place.move base) := by
  induction ps generalizing q with
  | nil => rfl
  | cons piece ps ih =>
      have hpiece := h piece List.mem_cons_self
      have hmoved : (q.move piece).rooted = false := (rooted_foldl [piece] q).trans hr
      rw [List.foldl_cons, ih (hq.move hpiece) hmoved fun p hp => h p (List.mem_cons_of_mem _ hp),
        hq.foldl_route_move hr hpiece, List.foldl_cons]

theorem Place.follow_assoc (p : Place) {q r : Place} (hq : q.Regular) (hr : r.Regular) :
    (p.follow q).follow r = p.follow (q.follow r) := by
  cases hroot : r.rooted with
  | true => rw [follow_rooted _ hroot, follow_rooted _ hroot, follow_rooted _ hroot]
  | false =>
      cases hqroot : q.rooted with
      | true =>
          have hboth : (q.follow r).rooted = true := by simp [rooted_follow, hqroot]
          rw [follow_rooted _ hqroot, follow_rooted _ hboth]
      | false =>
          have hneither : (q.follow r).rooted = false := by simp [rooted_follow, hqroot, hroot]
          rw [follow_unrooted _ hneither, follow_unrooted _ hroot, follow_unrooted _ hroot,
            follow_unrooted _ hqroot,
            hq.foldl_route_foldl hqroot (fun _ => hr.slash_not_mem_route) p]

/-! ## Joining texts -/

theorem place_eq_follow {cs : List Char} (h : startsAtRoot cs = false) (base : Place) :
    (pieces cs).foldl Place.move base = base.follow (place cs) := by
  have hstart : start cs = Place.here := by simp [start, h, Place.here]
  have hhere : Place.here.Regular := hstart ▸ regular_start cs
  rw [Place.follow_unrooted _ (by simp [h]), place, hstart,
    hhere.foldl_route_foldl rfl fun _ => slash_not_mem_of_mem_pieces]
  rfl

theorem startsAtRoot_append {front : List Char} (h : front ≠ []) (back : List Char) :
    startsAtRoot (front ++ back) = startsAtRoot front := by
  cases front with
  | nil => exact absurd rfl h
  | cons c front => rfl

theorem place_append_slash {front back : List Char} (hf : front ≠ [])
    (hb : startsAtRoot back = false) :
    place (front ++ '/' :: back) = (place front).follow (place back) := by
  rw [← place_eq_follow hb, place, pieces_append_slash, List.foldl_append]
  simp only [place, start, startsAtRoot_append hf]

theorem Plain.append {p q : String} (hp : Plain p) (hq : Plain q) : Plain (p ++ q) := by
  simp only [Plain, String.toList_append, List.mem_append, not_or]
  exact ⟨hp, hq⟩

theorem plain_join (base rel : String) : Plain (join base rel) := by
  unfold join
  split
  · exact plain_normalize _
  · split <;> exact plain_normalize _

theorem canonical_join {base rel : String} (hb : Plain base) (hr : Plain rel) :
    Canonical (join base rel) := by
  unfold join
  split
  · exact canonical_normalize hr
  · split
    · exact canonical_normalize hb
    · exact canonical_normalize ((hb.append (by decide)).append hr)

/-- Joined paths lead to where the second one leads when it counts from the first one. -/
theorem place_join {base rel : String} (hb : Plain base) (hr : Plain rel) :
    place (join base rel).toList = (place base.toList).follow (place rel.toList) := by
  unfold join
  split
  · rename_i h
    rw [place_normalize hr]
    rcases h with habs | rfl | rfl
    · exact (Place.follow_rooted _ (by simpa [isAbsolute] using habs)).symm
    · exact (regular_place _).here_follow.symm
    · exact (regular_place _).here_follow.symm
  · rename_i h
    obtain ⟨hrel, hbase⟩ := not_or.mp h
    split
    · rename_i hstay
      rw [place_normalize hb]
      rcases hstay with rfl | rfl <;> rfl
    · have hne : base.toList ≠ [] := by simpa using (not_or.mp hbase).1
      have hback : startsAtRoot rel.toList = false := by simpa [isAbsolute] using hrel
      rw [place_normalize ((hb.append (by decide)).append hr)]
      simpa using place_append_slash hne hback

theorem join_here {dir : String} (h : Plain dir) : join dir "." = normalize dir := by
  apply (canonical_join h (by decide)).eq_of_place_eq (canonical_normalize h)
  rw [place_join h (by decide), place_normalize h]
  rfl

theorem join_assoc {a b c : String} (ha : Plain a) (hb : Plain b) (hc : Plain c) :
    join a (join b c) = join (join a b) c := by
  have hbc := plain_join b c
  have hab := plain_join a b
  apply (canonical_join ha hbc).eq_of_place_eq (canonical_join hab hc)
  rw [place_join ha hbc, place_join hb hc, place_join hab hc, place_join ha hb,
    Place.follow_assoc _ (regular_place _) (regular_place _)]

end ConfigChain.Path
