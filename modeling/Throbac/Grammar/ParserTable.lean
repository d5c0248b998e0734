/-!
# The parser network of the language

The serialized network of the eleven syntax rules.
-/
namespace Throbac.Grammar

def parserTable : List Int := [
    4,1,39,160,2,0,7,0,2,1,7,1,2,2,7,2,2,3,7,3,2,4,7,4,2,5,7,5,2,6,7,6,2,7,7,7,2,8,7,8,2,9,7,9,2,10,
    7,10,1,0,5,0,24,8,0,10,0,12,0,27,9,0,1,0,1,0,1,0,1,1,1,1,1,1,1,1,5,1,36,8,1,10,1,12,1,39,9,1,3,
    1,41,8,1,1,1,1,1,1,1,1,1,3,1,47,8,1,1,1,1,1,1,1,1,1,1,2,1,2,1,3,1,3,1,3,1,4,1,4,1,4,1,5,1,5,1,5,
    1,5,1,6,5,6,66,8,6,10,6,12,6,69,9,6,1,7,5,7,72,8,7,10,7,12,7,75,9,7,1,8,1,8,1,8,1,8,1,8,1,8,1,8,
    1,8,1,8,1,8,1,8,1,8,1,8,1,8,1,8,1,8,1,8,1,8,1,8,1,8,3,8,97,8,8,1,8,1,8,1,8,1,8,1,8,1,8,1,8,1,8,
    1,8,1,8,3,8,109,8,8,1,8,1,8,3,8,113,8,8,1,9,1,9,1,9,1,9,1,9,1,9,1,9,1,9,1,9,1,9,1,9,1,9,3,9,127,
    8,9,1,9,1,9,1,9,1,9,1,9,1,9,1,9,1,9,1,9,1,9,1,9,1,9,5,9,141,8,9,10,9,12,9,144,9,9,1,10,1,10,1,
    10,1,10,5,10,150,8,10,10,10,12,10,153,9,10,3,10,155,8,10,1,10,1,10,1,10,1,10,0,1,18,11,0,2,4,6,
    8,10,12,14,16,18,20,0,4,1,0,19,20,1,0,21,22,1,0,23,24,1,0,26,31,175,0,25,1,0,0,0,2,40,1,0,0,0,4,
    52,1,0,0,0,6,54,1,0,0,0,8,57,1,0,0,0,10,60,1,0,0,0,12,67,1,0,0,0,14,73,1,0,0,0,16,112,1,0,0,0,
    18,126,1,0,0,0,20,154,1,0,0,0,22,24,3,2,1,0,23,22,1,0,0,0,24,27,1,0,0,0,25,23,1,0,0,0,25,26,1,0,
    0,0,26,28,1,0,0,0,27,25,1,0,0,0,28,29,3,4,2,0,29,30,5,0,0,1,30,1,1,0,0,0,31,32,5,1,0,0,32,37,3,
    10,5,0,33,34,5,2,0,0,34,36,3,10,5,0,35,33,1,0,0,0,36,39,1,0,0,0,37,35,1,0,0,0,37,38,1,0,0,0,38,
    41,1,0,0,0,39,37,1,0,0,0,40,31,1,0,0,0,40,41,1,0,0,0,41,42,1,0,0,0,42,43,5,3,0,0,43,46,5,37,0,0,
    44,45,5,4,0,0,45,47,5,36,0,0,46,44,1,0,0,0,46,47,1,0,0,0,47,48,1,0,0,0,48,49,5,5,0,0,49,50,3,6,
    3,0,50,51,5,6,0,0,51,3,1,0,0,0,52,53,3,6,3,0,53,5,1,0,0,0,54,55,3,12,6,0,55,56,3,14,7,0,56,7,1,
    0,0,0,57,58,3,10,5,0,58,59,5,7,0,0,59,9,1,0,0,0,60,61,5,37,0,0,61,62,5,8,0,0,62,63,5,36,0,0,63,
    11,1,0,0,0,64,66,3,8,4,0,65,64,1,0,0,0,66,69,1,0,0,0,67,65,1,0,0,0,67,68,1,0,0,0,68,13,1,0,0,0,
    69,67,1,0,0,0,70,72,3,16,8,0,71,70,1,0,0,0,72,75,1,0,0,0,73,71,1,0,0,0,73,74,1,0,0,0,74,15,1,0,
    0,0,75,73,1,0,0,0,76,77,5,37,0,0,77,78,3,18,9,0,78,79,5,9,0,0,79,113,1,0,0,0,80,81,3,18,9,0,81,
    82,5,10,0,0,82,83,5,5,0,0,83,84,3,14,7,0,84,85,5,6,0,0,85,113,1,0,0,0,86,87,3,18,9,0,87,88,5,11,
    0,0,88,89,5,5,0,0,89,90,3,14,7,0,90,96,5,6,0,0,91,92,5,12,0,0,92,93,5,5,0,0,93,94,3,14,7,0,94,
    95,5,6,0,0,95,97,1,0,0,0,96,91,1,0,0,0,96,97,1,0,0,0,97,113,1,0,0,0,98,99,3,18,9,0,99,100,5,13,
    0,0,100,113,1,0,0,0,101,102,3,18,9,0,102,103,5,14,0,0,103,113,1,0,0,0,104,105,3,18,9,0,105,106,
    5,15,0,0,106,113,1,0,0,0,107,109,3,18,9,0,108,107,1,0,0,0,108,109,1,0,0,0,109,110,1,0,0,0,110,
    113,5,16,0,0,111,113,3,20,10,0,112,76,1,0,0,0,112,80,1,0,0,0,112,86,1,0,0,0,112,98,1,0,0,0,112,
    101,1,0,0,0,112,104,1,0,0,0,112,108,1,0,0,0,112,111,1,0,0,0,113,17,1,0,0,0,114,115,6,9,-1,0,115,
    116,5,17,0,0,116,117,3,18,9,0,117,118,5,18,0,0,118,127,1,0,0,0,119,120,7,0,0,0,120,127,3,18,9,
    10,121,127,3,20,10,0,122,127,5,37,0,0,123,127,5,34,0,0,124,127,5,33,0,0,125,127,5,35,0,0,126,
    114,1,0,0,0,126,119,1,0,0,0,126,121,1,0,0,0,126,122,1,0,0,0,126,123,1,0,0,0,126,124,1,0,0,0,126,
    125,1,0,0,0,127,142,1,0,0,0,128,129,10,9,0,0,129,130,7,1,0,0,130,141,3,18,9,10,131,132,10,8,0,0,
    132,133,7,2,0,0,133,141,3,18,9,9,134,135,10,7,0,0,135,136,5,25,0,0,136,141,3,18,9,8,137,138,10,
    6,0,0,138,139,7,3,0,0,139,141,3,18,9,7,140,128,1,0,0,0,140,131,1,0,0,0,140,134,1,0,0,0,140,137,
    1,0,0,0,141,144,1,0,0,0,142,140,1,0,0,0,142,143,1,0,0,0,143,19,1,0,0,0,144,142,1,0,0,0,145,146,
    5,1,0,0,146,151,3,18,9,0,147,148,5,2,0,0,148,150,3,18,9,0,149,147,1,0,0,0,150,153,1,0,0,0,151,
    149,1,0,0,0,151,152,1,0,0,0,152,155,1,0,0,0,153,151,1,0,0,0,154,145,1,0,0,0,154,155,1,0,0,0,155,
    156,1,0,0,0,156,157,5,32,0,0,157,158,5,37,0,0,158,21,1,0,0,0,14,25,37,40,46,67,73,96,108,112,
    126,140,142,151,154]

end Throbac.Grammar
