/-
  The sixteen by sixteen cells that re-base kinetic energy and momentum integrals.
-/
namespace GaussianIntegrals

/-- The cells of the kinetic and momentum table by basis row and column, as weight, raw row
and raw column. -/
def kineticRows : List (List (List (Int × Int × Int))) := [
  [[(1,1,1)], [(1,1,2)], [(1,1,3)], [(1,1,4)], [(1,1,8)], [(1,1,9)], [(1,1,10)],
   [(1,1,5),(-1,1,6)], [(2,1,7),(-1,1,5),(-1,1,6)], [(1,1,11)], [(1,1,13),(-1,1,14)],
   [(1,1,18),(-3,1,15)], [(3,1,12),(-1,1,19)], [(2,1,20),(-3,1,13),(-3,1,14)],
   [(4,1,16),(-1,1,18),(-1,1,15)], [(4,1,17),(-1,1,12),(-1,1,19)]],
  [[(1,2,1)], [(1,2,2)], [(1,2,3)], [(1,2,4)], [(1,2,8)], [(1,2,9)], [(1,2,10)],
   [(1,2,5),(-1,2,6)], [(2,2,7),(-1,2,5),(-1,2,6)], [(1,2,11)], [(1,2,13),(-1,2,14)],
   [(1,2,18),(-3,2,15)], [(3,2,12),(-1,2,19)], [(2,2,20),(-3,2,13),(-3,2,14)],
   [(4,2,16),(-1,2,18),(-1,2,15)], [(4,2,17),(-1,2,12),(-1,2,19)]],
  [[(1,3,1)], [(1,3,2)], [(1,3,3)], [(1,3,4)], [(1,3,8)], [(1,3,9)], [(1,3,10)],
   [(1,3,5),(-1,3,6)], [(2,3,7),(-1,3,5),(-1,3,6)], [(1,3,11)], [(1,3,13),(-1,3,14)],
   [(1,3,18),(-3,3,15)], [(3,3,12),(-1,3,19)], [(2,3,20),(-3,3,13),(-3,3,14)],
   [(4,3,16),(-1,3,18),(-1,3,15)], [(4,3,17),(-1,3,12),(-1,3,19)]],
  [[(1,4,1)], [(1,4,2)], [(1,4,3)], [(1,4,4)], [(1,4,8)], [(1,4,9)], [(1,4,10)],
   [(1,4,5),(-1,4,6)], [(2,4,7),(-1,4,5),(-1,4,6)], [(1,4,11)], [(1,4,13),(-1,4,14)],
   [(1,4,18),(-3,4,15)], [(3,4,12),(-1,4,19)], [(2,4,20),(-3,4,13),(-3,4,14)],
   [(4,4,16),(-1,4,18),(-1,4,15)], [(4,4,17),(-1,4,12),(-1,4,19)]],
  [[(1,8,1)], [(1,8,2)], [(1,8,3)], [(1,8,4)], [(1,8,8)], [(1,8,9)], [(1,8,10)],
   [(1,8,5),(-1,8,6)], [(2,8,7),(-1,8,5),(-1,8,6)], [(1,8,11)], [(1,8,13),(-1,8,14)],
   [(1,8,18),(-3,8,15)], [(3,8,12),(-1,8,19)], [(2,8,20),(-3,8,13),(-3,8,14)],
   [(4,8,16),(-1,8,18),(-1,8,15)], [(4,8,17),(-1,8,12),(-1,8,19)]],
  [[(1,9,1)], [(1,9,2)], [(1,9,3)], [(1,9,4)], [(1,9,8)], [(1,9,9)], [(1,9,10)],
   [(1,9,5),(-1,9,6)], [(2,9,7),(-1,9,5),(-1,9,6)], [(1,9,11)], [(1,9,13),(-1,9,14)],
   [(1,9,18),(-3,9,15)], [(3,9,12),(-1,9,19)], [(2,9,20),(-3,9,13),(-3,9,14)],
   [(4,9,16),(-1,9,18),(-1,9,15)], [(4,9,17),(-1,9,12),(-1,9,19)]],
  [[(1,10,1)], [(1,10,2)], [(1,10,3)], [(1,10,4)], [(1,10,8)], [(1,10,9)], [(1,10,10)],
   [(1,10,5),(-1,10,6)], [(2,10,7),(-1,10,5),(-1,10,6)], [(1,10,11)], [(1,10,13),(-1,10,14)],
   [(1,10,18),(-3,10,15)], [(3,10,12),(-1,10,19)], [(2,10,20),(-3,10,13),(-3,10,14)],
   [(4,10,16),(-1,10,18),(-1,10,15)], [(4,10,17),(-1,10,12),(-1,10,19)]],
  [[(1,5,1),(-1,6,1)], [(1,5,2),(-1,6,2)], [(1,5,3),(-1,6,3)], [(1,5,4),(-1,6,4)],
   [(1,5,8),(-1,6,8)], [(1,5,9),(-1,6,9)], [(1,5,10),(-1,6,10)],
   [(1,5,5),(-1,5,6),(-1,6,5),(1,6,6)], [(2,5,7),(-1,5,5),(-1,5,6),(-2,6,7),(1,6,5),(1,6,6)],
   [(1,5,11),(-1,6,11)], [(1,5,13),(-1,5,14),(-1,6,13),(1,6,14)],
   [(1,5,18),(-3,5,15),(-1,6,18),(3,6,15)], [(3,5,12),(-1,5,19),(-3,6,12),(1,6,19)],
   [(2,5,20),(-3,5,13),(-3,5,14),(-2,6,20),(3,6,13),(3,6,14)],
   [(4,5,16),(-1,5,18),(-1,5,15),(-4,6,16),(1,6,18),(1,6,15)],
   [(4,5,17),(-1,5,12),(-1,5,19),(-4,6,17),(1,6,12),(1,6,19)]],
  [[(2,7,1),(-1,5,1),(-1,6,1)], [(2,7,2),(-1,5,2),(-1,6,2)], [(2,7,3),(-1,5,3),(-1,6,3)],
   [(2,7,4),(-1,5,4),(-1,6,4)], [(2,7,8),(-1,5,8),(-1,6,8)], [(2,7,9),(-1,5,9),(-1,6,9)],
   [(2,7,10),(-1,5,10),(-1,6,10)], [(2,7,5),(-2,7,6),(-1,5,5),(1,5,6),(-1,6,5),(1,6,6)],
   [(4,7,7),(-2,7,5),(-2,7,6),(-2,5,7),(1,5,5),(1,5,6),(-2,6,7),(1,6,5),(1,6,6)],
   [(2,7,11),(-1,5,11),(-1,6,11)], [(2,7,13),(-2,7,14),(-1,5,13),(1,5,14),(-1,6,13),(1,6,14)],
   [(2,7,18),(-6,7,15),(-1,5,18),(3,5,15),(-1,6,18),(3,6,15)],
   [(6,7,12),(-2,7,19),(-3,5,12),(1,5,19),(-3,6,12),(1,6,19)],
   [(4,7,20),(-6,7,13),(-6,7,14),(-2,5,20),(3,5,13),(3,5,14),(-2,6,20),(3,6,13),(3,6,14)],
   [(8,7,16),(-2,7,18),(-2,7,15),(-4,5,16),(1,5,18),(1,5,15),(-4,6,16),(1,6,18),(1,6,15)],
   [(8,7,17),(-2,7,12),(-2,7,19),(-4,5,17),(1,5,12),(1,5,19),(-4,6,17),(1,6,12),(1,6,19)]],
  [[(1,11,1)], [(1,11,2)], [(1,11,3)], [(1,11,4)], [(1,11,8)], [(1,11,9)], [(1,11,10)],
   [(1,11,5),(-1,11,6)], [(2,11,7),(-1,11,5),(-1,11,6)], [(1,11,11)], [(1,11,13),(-1,11,14)],
   [(1,11,18),(-3,11,15)], [(3,11,12),(-1,11,19)], [(2,11,20),(-3,11,13),(-3,11,14)],
   [(4,11,16),(-1,11,18),(-1,11,15)], [(4,11,17),(-1,11,12),(-1,11,19)]],
  [[(1,13,1),(-1,14,1)], [(1,13,2),(-1,14,2)], [(1,13,3),(-1,14,3)], [(1,13,4),(-1,14,4)],
   [(1,13,8),(-1,14,8)], [(1,13,9),(-1,14,9)], [(1,13,10),(-1,14,10)],
   [(1,13,5),(-1,13,6),(-1,14,5),(1,14,6)],
   [(2,13,7),(-1,13,5),(-1,13,6),(-2,14,7),(1,14,5),(1,14,6)], [(1,13,11),(-1,14,11)],
   [(1,13,13),(-1,13,14),(-1,14,13),(1,14,14)], [(1,13,18),(-3,13,14),(-1,14,18),(3,14,15)],
   [(3,13,12),(-1,13,19),(-3,14,12),(1,14,19)],
   [(2,13,20),(-3,13,13),(-3,13,14),(-2,14,20),(3,14,13),(3,14,14)],
   [(4,13,16),(-1,13,18),(-1,13,15),(-4,14,16),(1,14,18),(1,14,15)],
   [(4,13,17),(-1,13,12),(-1,13,19),(-4,14,17),(1,14,12),(1,14,19)]],
  [[(1,18,1),(-3,15,1)], [(1,18,2),(-3,15,2)], [(1,18,3),(-3,15,3)], [(1,18,4),(-3,15,4)],
   [(1,18,8),(-3,15,8)], [(1,18,9),(-3,15,9)], [(1,18,10),(-3,15,10)],
   [(1,18,5),(-1,18,6),(-3,15,5),(3,15,6)],
   [(2,18,7),(-1,18,5),(-1,18,6),(-6,15,7),(3,15,5),(3,15,6)], [(1,18,11),(-3,15,11)],
   [(1,18,13),(-1,18,14),(-3,15,13),(3,15,14)], [(1,18,18),(-3,18,15),(-3,15,18),(9,15,15)],
   [(3,18,12),(-1,18,19),(-9,15,12),(3,15,19)],
   [(2,18,20),(-3,18,13),(-3,18,14),(-6,15,20),(9,15,13),(9,15,14)],
   [(4,18,16),(-1,18,18),(-1,18,15),(-12,15,16),(3,15,18),(3,15,15)],
   [(4,18,17),(-1,18,12),(-1,18,19),(-12,15,17),(3,15,12),(3,15,19)]],
  [[(3,12,1),(-1,19,1)], [(3,12,2),(-1,19,2)], [(3,12,3),(-1,19,3)], [(3,12,4),(-1,19,4)],
   [(3,12,8),(-1,19,8)], [(3,12,9),(-1,19,9)], [(3,12,10),(-1,19,10)],
   [(3,12,5),(-3,12,6),(-1,19,5),(1,19,6)],
   [(6,12,7),(-3,12,5),(-3,12,6),(-2,19,7),(1,19,5),(1,19,6)], [(3,12,11),(-1,19,11)],
   [(3,12,13),(-3,12,14),(-1,19,13),(1,19,14)], [(3,12,18),(-9,12,15),(-1,19,18),(3,19,15)],
   [(9,12,12),(-3,12,19),(-3,19,12),(1,19,19)],
   [(6,12,20),(-9,12,13),(-9,12,14),(-2,19,20),(3,19,13),(3,19,14)],
   [(12,12,16),(-3,12,18),(-3,12,15),(-4,19,16),(1,19,18),(1,19,15)],
   [(12,12,17),(-3,12,12),(-3,12,19),(-4,19,17),(1,19,12),(1,19,19)]],
  [[(2,20,1),(-3,13,1),(-3,14,1)], [(2,20,2),(-3,13,2),(-3,14,2)],
   [(2,20,3),(-3,13,3),(-3,14,3)], [(2,20,4),(-3,13,4),(-3,14,4)],
   [(2,20,8),(-3,13,8),(-3,14,8)], [(2,20,9),(-3,13,9),(-3,14,9)],
   [(2,20,10),(-3,13,10),(-3,14,10)],
   [(2,20,5),(-2,20,6),(-3,13,5),(3,13,6),(-3,14,5),(3,14,6)],
   [(4,20,7),(-2,20,5),(-2,20,6),(-6,13,7),(3,13,5),(3,13,6),(-6,14,7),(3,14,5),(3,14,6)],
   [(2,20,11),(-3,13,11),(-3,14,11)],
   [(2,20,13),(-2,20,14),(-3,13,13),(3,13,14),(-3,14,13),(3,14,14)],
   [(2,20,18),(-6,20,15),(-3,13,18),(9,13,15),(-3,14,18),(9,14,15)],
   [(6,20,12),(-2,20,19),(-9,13,12),(3,13,19),(-9,14,12),(3,14,19)],
   [(4,20,20),(-6,20,13),(-6,20,14),(-6,13,20),(9,13,13),(9,13,14),(-6,14,20),(9,15,13),(9,15,14)],
   [(8,20,16),(-2,20,18),(-2,20,15),(-12,13,16),(3,13,18),(3,13,15),(-12,15,16),(3,15,18),(3,15,15)],
   [(8,20,17),(-2,20,12),(-2,20,19),(-12,13,17),(3,13,12),(3,13,19),(-12,14,17),(3,14,12),(3,14,19)]],
  [[(4,16,1),(-1,18,1),(-1,15,1)], [(4,16,2),(-1,18,2),(-1,15,2)],
   [(4,16,3),(-1,18,3),(-1,15,3)], [(4,16,4),(-1,18,4),(-1,15,4)],
   [(4,16,8),(-1,18,8),(-1,15,8)], [(4,16,9),(-1,18,9),(-1,15,9)],
   [(4,16,10),(-1,18,10),(-1,15,10)],
   [(4,16,5),(-4,16,6),(-1,18,5),(1,18,6),(-1,15,5),(1,15,6)],
   [(8,16,7),(-4,16,5),(-4,16,6),(-2,18,7),(1,18,5),(1,18,6),(-2,15,7),(1,15,5),(1,15,6)],
   [(4,16,11),(-1,18,11),(-1,15,11)],
   [(4,16,13),(-4,16,14),(-1,18,13),(1,18,14),(-1,15,13),(1,15,14)],
   [(4,16,18),(-12,16,15),(-1,18,18),(3,18,15),(-1,15,18),(3,15,15)],
   [(12,16,12),(-4,16,19),(-3,18,12),(1,18,19),(-3,15,12),(1,15,19)],
   [(8,16,20),(-12,16,13),(-12,16,14),(-2,18,20),(3,18,13),(3,18,14),(-2,15,20),(3,15,13),(3,15,14)],
   [(16,16,16),(-4,16,18),(-4,16,15),(-4,18,16),(1,18,18),(1,18,15),(-4,15,16),(1,14,18),(1,14,15)],
   [(16,16,17),(-4,16,12),(-4,16,19),(-4,18,17),(1,18,12),(1,18,19),(-4,15,17),(1,15,12),(1,15,19)]],
  [[(4,17,1),(-1,12,1),(-1,19,1)], [(4,17,2),(-1,12,2),(-1,19,2)],
   [(4,17,3),(-1,12,3),(-1,19,3)], [(4,17,4),(-1,12,4),(-1,19,4)],
   [(4,17,8),(-1,12,8),(-1,19,8)], [(4,17,9),(-1,12,9),(-1,19,9)],
   [(4,17,10),(-1,12,10),(-1,19,10)],
   [(4,17,5),(-4,17,6),(-1,12,5),(1,12,6),(-1,19,5),(1,19,6)],
   [(8,17,7),(-4,17,5),(-4,17,6),(-2,12,7),(1,12,5),(1,12,6),(-2,19,7),(1,19,5),(1,19,6)],
   [(4,17,11),(-1,12,11),(-1,19,11)],
   [(4,17,13),(-4,17,14),(-1,12,13),(1,12,14),(-1,19,13),(1,19,14)],
   [(4,17,18),(-12,17,15),(-1,12,18),(3,12,15),(-1,19,18),(3,19,15)],
   [(12,17,12),(-4,17,19),(-3,12,12),(1,12,19),(-3,19,12),(1,19,19)],
   [(8,17,20),(-12,17,13),(-12,17,14),(-2,12,20),(3,12,13),(3,12,14),(-2,19,20),(3,19,13),(3,19,14)],
   [(16,17,16),(-4,17,18),(-4,17,15),(-4,12,16),(1,12,18),(1,12,15),(-4,19,16),(1,19,18),(1,19,15)],
   [(16,17,17),(-4,17,12),(-4,17,19),(-4,12,17),(1,12,12),(1,12,19),(-4,19,17),(1,19,12),(1,19,19)]]]

end GaussianIntegrals
