/-!
# The synthesis window

The window of ISO/IEC 11172-3, table B.3, whose entries have nine decimals.
-/

namespace GameMedia.Audio.Synthesis

/-- The sizes of the entries up to the middle one in units of the ninth decimal. The second half has the sizes of the
first in reverse. -/
def windowSizes : Array Nat :=
  #[0, 15259, 15259, 15259, 15259, 15259, 15259, 30518, 30518, 30518, 30518, 45776, 45776, 61035, 61035, 76294, 76294,
    91553, 106812, 106812, 122070, 137329, 152588, 167847, 198364, 213623, 244141, 259399, 289917, 320435, 366211,
    396729, 442505, 473022, 534058, 579834, 625610, 686646, 747681, 808716, 885010, 961304, 1037598, 1113892, 1205444,
    1296997, 1388550, 1480103, 1586914, 1693726, 1785278, 1907349, 2014160, 2120972, 2243042, 2349854, 2456665,
    2578735, 2685547, 2792358, 2899170, 2990723, 3082275, 3173828, 3250122, 3326416, 3387451, 3433228, 3463745,
    3479004, 3479004, 3463745, 3417969, 3372192, 3280640, 3173828, 3051758, 2883911, 2700806, 2487183, 2227783,
    1937866, 1617432, 1266479, 869751, 442505, 30518, 549316, 1098633, 1693726, 2334595, 3005981, 3723145, 4486084,
    5294800, 6118774, 7003784, 7919312, 8865356, 9841919, 10848999, 11886597, 12939453, 14022827, 15121460, 16235352,
    17349243, 18463135, 19577026, 20690918, 21789551, 22857666, 23910522, 24932861, 25909424, 26840210, 27725220,
    28533936, 29281616, 29937744, 30532837, 31005859, 31387329, 31661987, 31814575, 31845093, 31738281, 31478882,
    31082153, 30517578, 29785156, 28884888, 27801514, 26535034, 25085449, 23422241, 21575928, 19531250, 17257690,
    14801025, 12115479, 9231567, 6134033, 2822876, 686646, 4394531, 8316040, 12420654, 16708374, 21179199, 25817871,
    30609131, 35552979, 40634155, 45837402, 51132202, 56533813, 61996460, 67520142, 73059082, 78628540, 84182739,
    89706421, 95169067, 100540161, 105819702, 110946655, 115921021, 120697021, 125259399, 129562378, 133590698,
    137298584, 140670776, 143676758, 146255493, 148422241, 150115967, 151306152, 151962280, 152069092, 151596069,
    150497437, 148773193, 146362305, 143264771, 139450073, 134887695, 129577637, 123474121, 116577148, 108856201,
    100311279, 90927124, 80688477, 69595337, 57617187, 44784546, 31082153, 16510010, 1068115, 15228271, 32379150,
    50354004, 69168091, 88775635, 109161377, 130310059, 152206421, 174789429, 198059082, 221984863, 246505737,
    271591187, 297210693, 323318481, 349868774, 376800537, 404083252, 431655884, 459472656, 487472534, 515609741,
    543823242, 572036743, 600219727, 628295898, 656219482, 683914185, 711318970, 738372803, 765029907, 791213989,
    816864014, 841949463, 866363525, 890090942, 913055420, 935195923, 956481934, 976852417, 996246338, 1014617920,
    1031936646, 1048156738, 1063217163, 1077117920, 1089782715, 1101211548, 1111373901, 1120223999, 1127746582,
    1133926392, 1138763428, 1142211914, 1144287109, 1144989014]

/-- The entries at which the sign changes. The first of them is negative. -/
def signChanges : List Nat :=
  [1, 64, 86, 128, 144, 192, 201, 256, 312, 320, 369, 384, 427, 448]

def windowEntry (i : Nat) : Float32 :=
  let size := Float32.ofScientific (windowSizes.getD (min i (512 - i)) 0) true 9
  if signChanges.countP (· ≤ i) % 2 = 1 then -size else size

def window : Vector Float32 512 := Vector.ofFn fun i => windowEntry i

end GameMedia.Audio.Synthesis
